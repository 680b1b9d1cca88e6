import Mathlib.Data.List.Basic
import ContextFree.Vocabulary

/-!
# Numbering symbols one by one

A vocabulary numbers the symbols of a list of productions when it has them all.
Here the numbers are handed out one at a time, while the productions are gone
through twice: once for the left-hand sides, and then for the right-hand sides,
where each symbol is looked up among the left-hand sides first.

A *symbol table* has its symbols in two forms, by number and by name.  To
*intern* a symbol is to look up its number by name and, if it has none, to give
it the next one and to write that into both forms.  A number is handed out when
no one knows yet which symbols will follow, and it is never changed.
-/

namespace ContextFree

/-- The symbols numbered so far, in two forms. -/
structure SymbolTable where
  /-- The symbols by number. -/
  names : Array Symbol := #[]
  /-- The numbers by name. -/
  ids : Std.HashMap Symbol Nat := ∅

namespace SymbolTable

/-- The number of a symbol, if it has one. -/
def find? (t : SymbolTable) (s : Symbol) : Option Nat := t.ids[s]?

/-- The number of a symbol, the next one if it has none yet. -/
def intern (s : Symbol) : StateM SymbolTable Nat :=
  modifyGet fun t =>
    match t.find? s with
    | some id => (id, t)
    | none => (t.names.size, ⟨t.names.push s, t.ids.insert s t.names.size⟩)

theorem run_intern_of_eq_some {t : SymbolTable} {s : Symbol} {id : Nat}
    (h : t.find? s = some id) : (intern s).run t = (id, t) := by
  show (match t.find? s with | some id => (id, t) | none => _) = _
  rw [h]

theorem run_intern_of_eq_none {t : SymbolTable} {s : Symbol} (h : t.find? s = none) :
    (intern s).run t = (t.names.size, ⟨t.names.push s, t.ids.insert s t.names.size⟩) := by
  show (match t.find? s with | some id => (id, t) | none => _) = _
  rw [h]

/-- The number of a symbol on a left-hand side. -/
def internLhs (p : Production) : StateM SymbolTable NontermId := NontermId.mk <$> intern p.lhs

/-- The reference to a symbol on a right-hand side.  Only what is no left-hand
side gets a number in the table of terminals. -/
def internRef (nonterminals : SymbolTable) (s : Symbol) : StateM SymbolTable SymbolRef :=
  match nonterminals.find? s with
  | some id => return .nonterm ⟨id⟩
  | none => (fun id => .term ⟨id⟩) <$> intern s

/-- The references to the symbols of a right-hand side. -/
def internRhs (nonterminals : SymbolTable) (p : Production) : StateM SymbolTable (List SymbolRef) :=
  p.rhs.mapM (internRef nonterminals)

end SymbolTable

/-- Productions in numbers, with the tables in which the numbers were handed
out. -/
structure Numbering where
  nonterminals : SymbolTable
  terminals : SymbolTable
  /-- The left-hand sides of the productions. -/
  lhs : List NontermId
  /-- The right-hand sides of the productions. -/
  rhs : List (List SymbolRef)

/-- Goes through the left-hand sides, and then through the right-hand sides
production by production and from left to right. -/
def Numbering.ofProductions (ps : List Production) : Numbering :=
  let (lhs, nonterminals) := (ps.mapM SymbolTable.internLhs).run {}
  let (rhs, terminals) := (ps.mapM (SymbolTable.internRhs nonterminals)).run {}
  { nonterminals, terminals, lhs, rhs }

end ContextFree
