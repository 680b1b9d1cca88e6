import ContextFree.Nullability

/-!
# Grammars

A grammar is a list of at least one production.  Its start symbol is the
left-hand side of the first.  No other condition is placed on it.

Beside the productions a grammar holds what recognition asks for again and
again: the numbered symbols, the rules, the *alternatives* of each nonterminal,
which are the indices of its productions in their order, and the null table.
All of it is computed from the productions, so two grammars count as equal when
their lists of productions are.

Questions by name (`isNonterminal`, `productionsFor`, …) answer for any symbol,
and a symbol that the grammar does not know has no property and no production.
-/

namespace ContextFree

/-- Why a list of productions is no grammar. -/
inductive GrammarError where
  /-- The list is empty, so there is no start symbol. -/
  | noProductions
deriving DecidableEq, Repr

/-- The error in words. -/
def GrammarError.message : GrammarError → String
  | .noProductions => "a grammar needs at least one production"

/-- A context-free grammar with its tables. -/
structure Grammar where
  productions : List Production
  start : Symbol
  /-- The symbols by number. -/
  vocabulary : Vocabulary
  /-- The productions by number, in the same order. -/
  rules : Array Rule
  /-- For each nonterminal the indices of its productions, ascending. -/
  alternatives : Array (List Nat)
  /-- For each nonterminal whether it derives the empty word. -/
  nullable : NullTable

namespace Grammar

/-- Files the index of each rule under the nonterminal on its left. -/
def fileAlternatives (count : Nat) (rules : List Rule) : Array (List Nat) :=
  rules.zipIdx.foldl (fun table (r, p) => table.modify r.lhs.index (· ++ [p]))
    (Array.replicate count [])

/-- Builds the tables of a list of productions, with the start symbol given. -/
def ofStart (start : Symbol) (ps : List Production) : Grammar :=
  let vocabulary := Vocabulary.ofProductions ps
  let rules := ps.map vocabulary.rule
  let count := vocabulary.nonterminals.size
  { productions := ps
    start
    vocabulary
    rules := rules.toArray
    alternatives := fileAlternatives count rules
    nullable := (NullTable.saturate rules (.blank count)).table }

/-- The grammar with the given productions. -/
def ofProductions : List Production → Except GrammarError Grammar
  | [] => .error .noProductions
  | p :: ps => .ok (ofStart p.lhs (p :: ps))

/-- Grammars are compared by their productions alone. -/
instance : BEq Grammar := ⟨fun g h => g.productions == h.productions⟩

/-! ## Questions by name -/

/-- The nonterminals in the order of first occurrence on the left. -/
def nonterminals (g : Grammar) : List Symbol := g.vocabulary.nonterminals.toList

/-- The terminals in the order of first occurrence on the right. -/
def terminals (g : Grammar) : List Symbol := g.vocabulary.terminals.toList

/-- Whether `s` is the left-hand side of a production. -/
def isNonterminal (g : Grammar) (s : Symbol) : Bool := s ∈ g.vocabulary.nonterminals

/-- Whether `s` occurs on a right-hand side and on no left-hand side. -/
def isTerminal (g : Grammar) (s : Symbol) : Bool := s ∈ g.vocabulary.terminals

/-- Whether the nonterminal with this number derives the empty word. -/
def nullableAt (g : Grammar) (a : NontermId) : Bool := g.nullable.getD a.index false

/-- Whether `s` is a nonterminal that derives the empty word. -/
def isNullable (g : Grammar) (s : Symbol) : Bool :=
  match g.vocabulary.nonterm? s with
  | none => false
  | some a => g.nullableAt a

/-- The nullable nonterminals, in the order of `nonterminals`. -/
def nullables (g : Grammar) : List Symbol := g.nonterminals.filter g.isNullable

/-- The indices of the productions of a nonterminal, in their order. -/
def alternativesAt (g : Grammar) (a : NontermId) : List Nat := g.alternatives.getD a.index []

/-- The productions with left-hand side `s`, in their order. -/
def productionsFor (g : Grammar) (s : Symbol) : List Production :=
  match g.vocabulary.nonterm? s with
  | none => []
  | some a => (g.alternativesAt a).filterMap (g.productions[·]?)

/-! ## Questions by number -/

/-- The number of the start symbol. -/
def startId (g : Grammar) : NontermId := g.vocabulary.nonterm g.start

/-- The number of a token, if it is a terminal of the grammar. -/
def tokenId? (g : Grammar) (token : Symbol) : Option TermId := g.vocabulary.term? token

/-- How many symbols stand on right-hand sides, each counted where it stands. -/
def rhsTotal (g : Grammar) : Nat := (g.productions.flatMap Production.rhs).length

/-! ## What is built -/

theorem ofProductions_eq_error_iff {ps : List Production} {e : GrammarError} :
    ofProductions ps = .error e ↔ ps = [] := by
  cases ps <;> cases e <;> simp [ofProductions]

theorem productions_of_ofProductions_eq_ok {ps : List Production} {g : Grammar}
    (h : ofProductions ps = .ok g) : g.productions = ps := by
  cases ps with
  | nil => simp [ofProductions] at h
  | cons p ps =>
    simp only [ofProductions, Except.ok.injEq] at h
    exact h ▸ rfl

end Grammar

end ContextFree
