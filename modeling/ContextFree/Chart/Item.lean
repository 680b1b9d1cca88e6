import ContextFree.Grammar.Basic

/-!
# Items

The item `(A -> α • β, k)` says that the production `A -> α β` was begun at
position `k` of the word and that `α` has been matched since.  The production is
held by its index and `α` by its length, the *dot*, so an item by itself knows
no grammar.  Two items are equal when production, dot and origin are.

What an item says of a grammar is asked of the item with the grammar at hand.
If the grammar has no production of that index there is no answer.
-/

namespace ContextFree

/-- A production matched up to a dot, begun at an origin. -/
structure Item where
  /-- The index of the production. -/
  production : Nat
  /-- How many symbols of the right-hand side are matched. -/
  dot : Nat
  /-- The position at which the production began. -/
  origin : Nat
deriving DecidableEq, Repr

namespace Item

/-- A production about to begin. -/
def fresh (production origin : Nat) : Item := ⟨production, 0, origin⟩

/-- The item with one more symbol matched. -/
def advance (item : Item) : Item := { item with dot := item.dot + 1 }

variable (g : Grammar) (item : Item)

/-- The nonterminal on the left of the production. -/
def lhs? : Option NontermId := g.rules[item.production]?.map Rule.lhs

/-- The symbol after the dot.  A finished item has none. -/
def next? : Option SymbolRef := g.rules[item.production]?.bind (·.rhs[item.dot]?)

/-- Whether nothing is left to match. -/
def isDone : Bool := g.rules[item.production]?.any (·.rhs.length ≤ item.dot)

/-- The production with the dot and the origin shown in it. -/
def display? : Option String :=
  g.productions[item.production]?.map (·.displayAt item.dot item.origin)

end Item

end ContextFree
