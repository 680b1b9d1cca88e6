import ContextFree.Chart.Item
import ContextFree.Grammar.Derivation

/-!
# What a chart should hold

Two descriptions of the items at the positions of a word.  Neither speaks of an
order, of a worklist or of numbered symbols.

*By rules.*  `Entailed` is the least family that holds a fresh item for each
production of the start symbol at position `0` and is closed under prediction,
completion and scanning.  Completion looks at the finished family, and there is
no rule for nullable symbols.

*By meaning.*  An item is `Valid` at a position when its matched symbols derive
the tokens from its origin to the position, and its left-hand side can stand
right behind the tokens before its origin in something that the start symbol
derives.
-/

namespace ContextFree

namespace Item

/-- The item is of this production of the list. -/
def Of (item : Item) (ps : List Production) (p : Production) : Prop :=
  ps[item.production]? = some p

/-- The item is of a production for `s`. -/
def HasLhs (item : Item) (ps : List Production) (s : Symbol) : Prop :=
  ∃ p, item.Of ps p ∧ p.lhs = s

/-- The symbol after the dot is `s`. -/
def Awaits (item : Item) (ps : List Production) (s : Symbol) : Prop :=
  ∃ p, item.Of ps p ∧ p.rhs[item.dot]? = some s

/-- All of the right-hand side is matched. -/
def Finished (item : Item) (ps : List Production) : Prop :=
  ∃ p, item.Of ps p ∧ p.rhs.length ≤ item.dot

end Item

/-- The least family of items under the three rules. -/
inductive Entailed (ps : List Production) (start : Symbol) (word : List Symbol) :
    Nat → Item → Prop
  /-- A production of the start symbol may begin at position `0`. -/
  | seed {p : Nat} : (Item.fresh p 0).HasLhs ps start → Entailed ps start word 0 (.fresh p 0)
  /-- A production of an awaited nonterminal may begin. -/
  | predict {i p : Nat} {item : Item} {b : Symbol} :
      Entailed ps start word i item → item.Awaits ps b → (Item.fresh p i).HasLhs ps b →
      Entailed ps start word i (.fresh p i)
  /-- A finished item advances what awaited its left-hand side at its origin. -/
  | complete {i : Nat} {item parent : Item} {b : Symbol} :
      Entailed ps start word i item → item.Finished ps → item.HasLhs ps b →
      Entailed ps start word item.origin parent → parent.Awaits ps b →
      Entailed ps start word i parent.advance
  /-- An awaited token that is a terminal advances the item past it. -/
  | scan {i : Nat} {item : Item} {token : Symbol} :
      Entailed ps start word i item → item.Awaits ps token → word[i]? = some token →
      ¬ IsLhs ps token → Entailed ps start word (i + 1) item.advance

/-- What an item claims at position `i` of a word holds: the tokens before `i`
are terminals, the matched symbols derive those from the origin on, and those
before the origin begin something that the start symbol derives, followed by the
left-hand side. -/
structure Valid (ps : List Production) (start : Symbol) (word : List Symbol) (i : Nat)
    (item : Item) : Prop where
  /-- The tokens read are terminals. -/
  terminals : ∀ token ∈ word.take i, ¬ IsLhs ps token
  /-- The origin is not ahead. -/
  origin_le : item.origin ≤ i
  /-- The production fits on both sides of the origin. -/
  fits : ∃ p, item.Of ps p ∧ item.dot ≤ p.rhs.length ∧
    Derives ps (p.rhs.take item.dot) ((word.take i).drop item.origin) ∧
    ∃ rest, Derives ps [start] (word.take item.origin ++ p.lhs :: rest)

end ContextFree
