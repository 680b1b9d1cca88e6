import ContextFree.Recognition.Verdict

/-!
# Checked look-ups

Tables and cells are read and written by index.  Where nothing stands at an
index, reading it finds nothing and writing it does nothing, so a wrong index
would go unnoticed.  Here the same computations are carried out with each index
checked: the first one that is out of range ends the computation, with `none`.

The order of the look-ups is part of it.  A flag is looked at before its rule is
applied, and what need not be looked at is not: the symbols behind one that does
not vanish, the token behind the end of the word, the production of an item that
did not begin at the front.  An item is displayed whenever its use is told, for
which its production is looked up among those of the grammar.
-/

namespace ContextFree

/-- `x`, which is made by a write at index `i`, if there are that many places. -/
def ifWithin {α : Type} (i size : Nat) (x : α) : Option α := if i < size then some x else none

/-! ## The null table -/

namespace NullTable

/-- Whether a symbol is known to derive the empty word. -/
def checkedVanishes (t : NullTable) : SymbolRef → Option Bool
  | .nonterm a => t[a.index]?
  | .term _ => some false

/-- Applies one rule, unless its flag is set already. -/
def checkedSettle (t : NullTable) (r : Rule) : Option NullTable := do
  let known ← t[r.lhs.index]?
  if known then some t
  else
    let all ← r.rhs.allM t.checkedVanishes
    if all then ifWithin r.lhs.index t.size (t.setIfInBounds r.lhs.index true) else some t

/-- Applies every rule once, each to what the earlier ones left. -/
def checkedPass (rules : List Rule) (t : NullTable) : Option NullTable :=
  rules.foldlM checkedSettle t

/-! What is computed with checks is what is computed without them. -/

theorem all_vanishes_of_checked {t : NullTable} {rhs : List SymbolRef} {all : Bool}
    (h : rhs.allM t.checkedVanishes = some all) : rhs.all t.vanishes = all := by
  induction rhs with
  | nil => exact Option.some.inj h
  | cons a rhs ih =>
    obtain ⟨known, hknown, hrest⟩ := Option.bind_eq_some_iff.1 h
    have ha : t.vanishes a = known := by
      cases a with
      | nonterm a =>
        have hflag : t[a.index]? = some known := hknown
        rw [vanishes, Array.getD_eq_getD_getElem?, hflag]
        rfl
      | term a => exact Option.some.inj hknown
    rw [List.all_cons, ha]
    cases known with
    | true => exact ih hrest
    | false => exact Option.some.inj hrest

theorem settle_of_checked {t u : NullTable} {r : Rule} (h : t.checkedSettle r = some u) :
    t.settle r = u := by
  obtain ⟨known, hknown, hrest⟩ := Option.bind_eq_some_iff.1 h
  obtain ⟨hlt, hflag⟩ := Array.getElem?_eq_some_iff.1 hknown
  cases known with
  | true =>
    -- The rule is skipped, and applying it would set a flag that is set.
    have hset : t.setIfInBounds r.lhs.index true = t := by
      rw [Array.setIfInBounds, dif_pos hlt, ← hflag, Array.set_getElem_self]
    obtain rfl := Option.some.inj hrest
    rw [settle, hset, ite_self]
  | false =>
    obtain ⟨all, hall, hrest⟩ := Option.bind_eq_some_iff.1 hrest
    rw [settle, all_vanishes_of_checked hall]
    cases all with
    | true =>
      rw [if_pos rfl, ifWithin, if_pos hlt] at hrest
      exact Option.some.inj hrest
    | false => exact Option.some.inj hrest

theorem pass_of_checked {rules : List Rule} {t u : NullTable}
    (h : t.checkedPass rules = some u) : t.pass rules = u := by
  induction rules generalizing t with
  | nil => exact Option.some.inj h
  | cons r rules ih =>
    obtain ⟨v, hv, hrest⟩ := Option.bind_eq_some_iff.1 h
    rw [pass, List.foldl_cons, settle_of_checked hv]
    exact ih hrest

/-- Repeats passes until one changes nothing. -/
def checkedSaturate (rules : List Rule) (t : NullTable) : Option NullTable :=
  match _hpass : t.checkedPass rules with
  | none => none
  | some next => if next = t then some t else checkedSaturate rules next
termination_by t.unknown
decreasing_by
  rename_i hne
  obtain rfl := pass_of_checked _hpass
  exact unknown_pass_lt hne

theorem checkedSaturate_of_pass {rules : List Rule} {t next : NullTable}
    (h : t.checkedPass rules = some next) :
    checkedSaturate rules t = if next = t then some t else checkedSaturate rules next := by
  rw [checkedSaturate]
  split
  · rename_i hnone
    rw [h] at hnone
    cases hnone
  · rename_i next' hsome
    rw [h] at hsome
    cases hsome
    rfl

end NullTable

namespace Grammar

/-! ## The tables of a grammar -/

/-- Files the index of each rule under the nonterminal on its left. -/
def checkedFile (count : Nat) (rules : List Rule) : Option (Array (List Nat)) :=
  rules.zipIdx.foldlM
    (fun table (r, p) => ifWithin r.lhs.index table.size (table.modify r.lhs.index (· ++ [p])))
    (Array.replicate count [])

/-- Builds the tables of at least one production.  The start symbol is looked
up: it has the number on the left of the first rule. -/
def checkedBuild (ps : List Production) : Option Grammar := do
  let vocabulary := Vocabulary.ofProductions ps
  let rules := ps.map vocabulary.rule
  let count := vocabulary.nonterminals.size
  let alternatives ← checkedFile count rules
  let nullable ← NullTable.checkedSaturate rules (.blank count)
  let first ← rules[0]?
  let start ← vocabulary.nonterminals.get? first.lhs.index
  some { productions := ps, start, vocabulary, rules := rules.toArray, alternatives, nullable }

/-- The grammar with the given productions. -/
def checkedOfProductions : List Production → Option (Except GrammarError Grammar)
  | [] => some (.error .noProductions)
  | p :: ps => (checkedBuild (p :: ps)).map .ok

/-! ## The recognition of a word -/

/-- The symbol after the dot of an item, if there is one. -/
def checkedNext (g : Grammar) (item : Item) : Option (Option SymbolRef) :=
  g.rules[item.production]?.map (·.rhs[item.dot]?)

/-- The items of a list that have the nonterminal `b` after the dot. -/
def checkedAwaiting (g : Grammar) (b : NontermId) : List Item → Option (List Item)
  | [] => some []
  | item :: items => do
    let next ← g.checkedNext item
    let rest ← g.checkedAwaiting b items
    some (if next = some (.nonterm b) then item :: rest else rest)

/-- Adds an item to the cell at `i`, to be taken later. -/
def checkedOffer (i : Nat) (s : Progress) (item : Item) : Option Progress :=
  ifWithin i s.chart.cells.size (s.offer i item)

/-- Adds an item to the cell at `i`, to be taken when the next position is. -/
def checkedHandOn (i : Nat) (s : Progress) (item : Item) : Option Progress :=
  ifWithin i s.chart.cells.size (s.handOn i item)

/-- Records and displays the use of an item. -/
def checkedNote (g : Grammar) (s : Progress) (kind : StepKind) (i : Nat) (item : Item) :
    Option Progress :=
  (item.display? g).map fun _ => s.note kind i item

/-- Completes a finished item. -/
def checkedComplete (g : Grammar) (i : Nat) (s : Progress) (item : Item) : Option Progress := do
  let rule ← g.rules[item.production]?
  let held ← s.chart.cells[item.origin]?
  let parents ← g.checkedAwaiting rule.lhs held.toList
  (parents.map Item.advance).foldlM (checkedOffer i) s

/-- Predicts the nonterminal `b` after the dot of an item. -/
def checkedPredict (g : Grammar) (i : Nat) (s : Progress) (item : Item) (b : NontermId) :
    Option Progress := do
  let alternatives ← g.alternatives[b.index]?
  let s ← (alternatives.map (Item.fresh · i)).foldlM (checkedOffer i) s
  let nullable ← g.nullable[b.index]?
  if nullable then checkedOffer i s item.advance else some s

/-- Takes one item at position `i`. -/
def checkedTake (g : Grammar) (tokens : Array (Option TermId)) (i : Nat) (s : Progress)
    (item : Item) : Option Progress := do
  let next ← g.checkedNext item
  match next with
  | none =>
    let s ← g.checkedNote s .complete i item
    g.checkedComplete i s item
  | some (.nonterm b) =>
    let s ← g.checkedNote s .predict i item
    g.checkedPredict i s item b
  | some (.term a) =>
    if i < tokens.size then
      let token ← tokens[i]?
      if token = some a then
        let s ← g.checkedNote s .scan i item
        checkedHandOn (i + 1) s item.advance
      else some s
    else some s

/-- Takes up to `fuel` items at position `i`. -/
def checkedDrain (g : Grammar) (tokens : Array (Option TermId)) (i : Nat) :
    (fuel : Nat) → Progress → Option Progress
  | 0, s => some s
  | fuel + 1, s =>
    match s.pending with
    | [] => some s
    | item :: rest => do
      let s ← g.checkedTake tokens i { s with pending := rest } item
      g.checkedDrain tokens i fuel s

/-- Takes all items at position `i` and turns to the next position. -/
def checkedClose (g : Grammar) (tokens : Array (Option TermId)) (s : Progress) (i : Nat) :
    Option Progress := do
  let s ← g.checkedDrain tokens i (g.capacity i) s
  some { s with pending := s.pending ++ s.scanned, scanned := [] }

/-- Puts a fresh item for each alternative of the start symbol into cell `0`. -/
def checkedSeed (g : Grammar) (n : Nat) : Option Progress := do
  let alternatives ← g.alternatives[g.startId.index]?
  (alternatives.map (Item.fresh · 0)).foldlM (checkedOffer 0) ⟨.blank n, [], [], #[]⟩

/-- The recognition of a word, carried through to its end. -/
def checkedRun (g : Grammar) (word : List Symbol) : Option Progress := do
  let s ← g.checkedSeed word.length
  (List.range (word.length + 1)).foldlM (g.checkedClose (g.tokenIds word)) s

/-! ## The verdict -/

/-- Whether an item derives all of a word, if it stands in the last cell. -/
def checkedIsAccepting (g : Grammar) (item : Item) : Option Bool :=
  if item.origin = 0 then
    g.rules[item.production]?.map fun r => decide (r.rhs.length ≤ item.dot) && r.lhs == g.startId
  else some false

/-- Whether a complete chart accepts its word. -/
def checkedAccepts (g : Grammar) (c : Chart) : Option Bool := do
  let last ← c.cells[c.cells.size - 1]?
  last.toList.anyM g.checkedIsAccepting

/-- A look-up out of range is noticed, also one that would find nothing to do. -/
example : checkedOffer 2 ⟨.blank 1, [], [], #[]⟩ ⟨0, 0, 0⟩ = none := rfl

end Grammar

end ContextFree
