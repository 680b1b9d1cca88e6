import ContextFree.Symbol

/-!
# Productions

A production `A -> X Y` lets its left-hand side `A` be replaced by its right-hand
side `X Y`.  A production with nothing on the right is *empty*.

Three texts are made of a production, each a list of words with one space
between neighbours.

* Its line in a grammar text: the left-hand side, then the right-hand side.
* Its display: an arrow stands between the two sides.
* Its display with a mark: as before, with a bullet where the mark stands and
  the position where the production began at the end, after an at sign.
-/

namespace ContextFree

/-- A symbol and a list of symbols that may take its place. -/
structure Production where
  /-- The symbol that is replaced. -/
  lhs : Symbol
  /-- What takes its place. -/
  rhs : List Symbol
deriving DecidableEq, Repr

namespace Production

/-- Whether nothing stands on the right. -/
def isEmpty (p : Production) : Bool := p.rhs.isEmpty

/-- The line of the production in a grammar text, with the line feed that ends it. -/
def line (p : Production) : String := Symbol.spaced (p.lhs :: p.rhs) ++ "\n"

/-- The production as shown to people. -/
def display (p : Production) : String := Symbol.spaced (p.lhs :: "->" :: p.rhs)

/-- The right-hand side with a bullet before the symbol at index `dot`, or at
the end if `dot` is the length.  Beyond the end there is no place for a bullet. -/
def marked (p : Production) (dot : Nat) : List Symbol := p.rhs.insertIdx dot "•"

/-- The production with a bullet at `dot` and the position `origin` at the end. -/
def displayAt (p : Production) (dot origin : Nat) : String :=
  Symbol.spaced (p.lhs :: "->" :: p.marked dot ++ ["@" ++ toString origin])

/-! ## Where the bullet stands -/

/-- Up to the length of a list, an insertion splits it. -/
theorem insertIdx_of_le_length {α : Type} {l : List α} {i : Nat} (x : α) (h : i ≤ l.length) :
    l.insertIdx i x = l.take i ++ x :: l.drop i := by
  induction l generalizing i with
  | nil => obtain rfl := Nat.le_zero.1 h; rfl
  | cons a l ih =>
    cases i with
    | zero => rfl
    | succ i =>
      rw [List.insertIdx_succ_cons, ih (Nat.le_of_succ_le_succ h), List.take_succ_cons,
        List.drop_succ_cons, List.cons_append]

theorem marked_of_le {p : Production} {dot : Nat} (h : dot ≤ p.rhs.length) :
    p.marked dot = p.rhs.take dot ++ "•" :: p.rhs.drop dot := insertIdx_of_le_length "•" h

theorem marked_of_length_lt {p : Production} {dot : Nat} (h : p.rhs.length < dot) :
    p.marked dot = p.rhs := List.insertIdx_of_length_lt h

example : (Production.mk "S" ["a", "b"]).displayAt 1 0 = "S -> a • b @0" := by decide

example : (Production.mk "S" []).displayAt 0 7 = "S -> • @7" := by decide

end Production

end ContextFree
