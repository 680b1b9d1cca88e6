import ContextFree.Chart.Basic

/-!
# The progress of a recognition

A word is recognized position by position.  At each position the items of its
cell are taken one by one, in the order in which they came, and three rules add
further items.

* *Predict.*  An item with the nonterminal `B` after its dot adds a fresh item
  for each alternative of `B`.  If `B` is nullable it also adds itself advanced.
* *Complete.*  A finished item for `B` that began at `k` advances every item of
  cell `k` that has `B` after its dot.
* *Scan.*  An item with the token at this position after its dot is advanced
  into the next cell.

Completion reads cell `k` as it stands at that moment.  If `k` is the current
position the cell may still grow, and a parent that comes later would be missed.
It is not lost, because then `B` was matched with no token, so it is nullable,
and predicting the parent has advanced it already.

An item that a cell holds already is not added again.  What is added to the
current cell waits in the *pending* list, first in and first out.  What is
scanned waits apart until the position is closed, and only then becomes the
pending list of the next one.

A position takes a bounded number of items.  Its cell holds at most one fresh
item for each production, and for each origin up to the position at most one
item for each symbol that can stand before a dot (`Grammar.capacity`).
-/

namespace ContextFree

/-- Which rule an item is used for. -/
inductive StepKind where
  /-- Its next symbol is a nonterminal. -/
  | predict
  /-- It is finished. -/
  | complete
  /-- Its next symbol is the token at the position. -/
  | scan
deriving DecidableEq, Repr

/-- One use of an item. -/
structure Step where
  kind : StepKind
  position : Nat
  item : Item
deriving DecidableEq, Repr

/-- How far a recognition has come. -/
structure Progress where
  /-- The items found. -/
  chart : Chart
  /-- The items of the current cell that are still to be taken, oldest first. -/
  pending : List Item
  /-- The items of the next cell, oldest first. -/
  scanned : List Item
  /-- The uses of items so far, oldest first. -/
  steps : Array Step
deriving DecidableEq, Repr

/-- A bound on the items that position `i` takes. -/
def Grammar.capacity (g : Grammar) (i : Nat) : Nat :=
  g.productions.length + (i + 1) * g.rhsTotal

namespace Progress

/-- Adds an item to the cell at `i`, to be taken later. -/
def offer (i : Nat) (s : Progress) (item : Item) : Progress :=
  match s.chart.insert? i item with
  | none => s
  | some chart => { s with chart, pending := s.pending ++ [item] }

/-- Adds an item to the cell at `i`, to be taken when the next position is. -/
def handOn (i : Nat) (s : Progress) (item : Item) : Progress :=
  match s.chart.insert? i item with
  | none => s
  | some chart => { s with chart, scanned := s.scanned ++ [item] }

/-- Records the use of an item. -/
def note (s : Progress) (kind : StepKind) (i : Nat) (item : Item) : Progress :=
  { s with steps := s.steps.push ⟨kind, i, item⟩ }

end Progress

namespace Grammar

/-- The items that predicting adds at position `i`, where `item` has the
nonterminal `b` after its dot. -/
def predictions (g : Grammar) (i : Nat) (item : Item) (b : NontermId) : List Item :=
  (g.alternativesAt b).map (Item.fresh · i) ++ if g.nullableAt b then [item.advance] else []

/-- The items that completing `item` adds: the advanced items of the cell where
it began that wait for its nonterminal. -/
def completions (g : Grammar) (chart : Chart) (item : Item) : List Item :=
  match item.lhs? g with
  | none => []
  | some b =>
    ((chart.cell item.origin).toList.filter (·.next? g = some (.nonterm b))).map Item.advance

/-- Takes one item at position `i`: the rule that fits its next symbol is used. -/
def take (g : Grammar) (tokens : Array (Option TermId)) (i : Nat) (s : Progress) (item : Item) :
    Progress :=
  match item.next? g with
  | none => (g.completions s.chart item).foldl (Progress.offer i) (s.note .complete i item)
  | some (.nonterm b) =>
    (g.predictions i item b).foldl (Progress.offer i) (s.note .predict i item)
  | some (.term a) =>
    if tokens[i]? = some (some a) then (s.note .scan i item).handOn (i + 1) item.advance else s

/-- Takes up to `fuel` items at position `i`. -/
def drain (g : Grammar) (tokens : Array (Option TermId)) (i : Nat) :
    (fuel : Nat) → Progress → Progress
  | 0, s => s
  | fuel + 1, s =>
    match s.pending with
    | [] => s
    | item :: rest => g.drain tokens i fuel (g.take tokens i { s with pending := rest } item)

/-- Takes all items at position `i` and turns to the next position. -/
def close (g : Grammar) (tokens : Array (Option TermId)) (s : Progress) (i : Nat) : Progress :=
  let s := g.drain tokens i (g.capacity i) s
  { s with pending := s.pending ++ s.scanned, scanned := [] }

/-- Before anything is taken, cell `0` of `n + 1` holds a fresh item for each
alternative of the start symbol. -/
def seed (g : Grammar) (n : Nat) : Progress :=
  ((g.alternativesAt g.startId).map (Item.fresh · 0)).foldl (Progress.offer 0)
    ⟨.blank n, [], [], #[]⟩

/-- The tokens of a word by number.  What is no terminal has none and is never
scanned. -/
def tokenIds (g : Grammar) (word : List Symbol) : Array (Option TermId) :=
  (word.map g.tokenId?).toArray

/-- The recognition of a word, carried through to its end. -/
def run (g : Grammar) (word : List Symbol) : Progress :=
  (List.range (word.length + 1)).foldl (g.close (g.tokenIds word)) (g.seed word.length)

end Grammar

end ContextFree
