import ContextFree.Production
import ContextFree.Register

/-!
# The vocabulary of a list of productions

A symbol is a *nonterminal* of a list of productions when it is the left-hand
side of one of them, earlier or later.  Every other symbol on a right-hand side
is a *terminal*.  So no symbol is both, and a misspelled nonterminal is a
terminal that no input will supply.

Nonterminals and terminals are numbered apart, each in the order of first
occurrence: left-hand sides from the first production to the last, right-hand
sides production by production and from left to right.  A *reference* is a
number together with the side it counts on, and a *rule* is a production with
references in place of its symbols.
-/

namespace ContextFree

/-- The number of a nonterminal. -/
structure NontermId where
  index : Nat
deriving DecidableEq, Repr

/-- The number of a terminal. -/
structure TermId where
  index : Nat
deriving DecidableEq, Repr

/-- A symbol on a right-hand side, as a number. -/
inductive SymbolRef where
  | nonterm (id : NontermId)
  | term (id : TermId)
deriving DecidableEq, Repr

/-- A production with references in place of its symbols. -/
structure Rule where
  lhs : NontermId
  rhs : List SymbolRef
deriving DecidableEq, Repr

/-- The numbered symbols of a list of productions. -/
structure Vocabulary where
  /-- The left-hand sides. -/
  nonterminals : Register Symbol
  /-- The symbols of the right-hand sides that are no left-hand side. -/
  terminals : Register Symbol
deriving DecidableEq, Repr

namespace Vocabulary

/-- The vocabulary of a list of productions.  All left-hand sides are known
before a symbol on the right is called a terminal. -/
def ofProductions (ps : List Production) : Vocabulary :=
  let nonterminals := Register.ofList (ps.map Production.lhs)
  ⟨nonterminals, .ofList ((ps.flatMap Production.rhs).filter (· ∉ nonterminals))⟩

/-- The number of a nonterminal, if `s` is one. -/
def nonterm? (v : Vocabulary) (s : Symbol) : Option NontermId :=
  (v.nonterminals.idxOf? s).map NontermId.mk

/-- The number of a terminal, if `s` is one. -/
def term? (v : Vocabulary) (s : Symbol) : Option TermId :=
  (v.terminals.idxOf? s).map TermId.mk

/-- The number of a left-hand side. -/
def nonterm (v : Vocabulary) (s : Symbol) : NontermId := ⟨v.nonterminals.idxOf s⟩

/-- The reference to a symbol on a right-hand side. -/
def ref (v : Vocabulary) (s : Symbol) : SymbolRef :=
  if s ∈ v.nonterminals then .nonterm (v.nonterm s) else .term ⟨v.terminals.idxOf s⟩

/-- The symbol that a reference stands for, if its number is in use. -/
def symbol? (v : Vocabulary) : SymbolRef → Option Symbol
  | .nonterm a => v.nonterminals.get? a.index
  | .term a => v.terminals.get? a.index

/-- The production with each symbol replaced by its reference. -/
def rule (v : Vocabulary) (p : Production) : Rule := ⟨v.nonterm p.lhs, p.rhs.map v.ref⟩

/-! ## Membership -/

variable {ps : List Production} {s : Symbol}

@[simp] theorem mem_nonterminals_ofProductions :
    s ∈ (ofProductions ps).nonterminals ↔ ∃ p ∈ ps, p.lhs = s := by
  simp [ofProductions]

@[simp] theorem mem_terminals_ofProductions :
    s ∈ (ofProductions ps).terminals ↔
      (∃ p ∈ ps, s ∈ p.rhs) ∧ ¬ ∃ p ∈ ps, p.lhs = s := by
  rw [ofProductions, Register.mem_ofList, List.mem_filter, decide_eq_true_iff, List.mem_flatMap,
    Register.mem_ofList, List.mem_map]

@[simp] theorem isSome_nonterm? {v : Vocabulary} :
    (v.nonterm? s).isSome ↔ s ∈ v.nonterminals := by
  simp [nonterm?]

@[simp] theorem isSome_term? {v : Vocabulary} : (v.term? s).isSome ↔ s ∈ v.terminals := by
  simp [term?]

theorem symbol?_ref {v : Vocabulary} (h : s ∈ v.nonterminals ∨ s ∈ v.terminals) :
    v.symbol? (v.ref s) = some s := by
  by_cases hn : s ∈ v.nonterminals
  · rw [ref, if_pos hn]
    exact Register.get?_idxOf hn
  · rw [ref, if_neg hn]
    exact Register.get?_idxOf (h.resolve_left hn)

end Vocabulary

end ContextFree
