import ContextFree.Chart.Session

/-!
# The history of a session

What a session on a chart should answer, said without a chart.

A *history* remembers every insertion since the session last started over, in
the order in which they were made, and also those of an item that had been
inserted at the same position before.  Looking leaves no mark in it, and neither
does a command that names a position beyond the last cell.

All replies follow from it.  A cell holds the items inserted at its position,
each where it was inserted first, and an item is new when it was not inserted
there before.
-/

namespace ContextFree.Chart

/-- What was done in a session since it last started over. -/
structure History where
  /-- The number of tokens it started over with. -/
  length : Nat
  /-- The insertions since, each with its position, oldest first. -/
  insertions : List (Nat × Item)
deriving DecidableEq, Repr

namespace History

/-- The history after one more command. -/
def record (h : History) : Command → History
  | .reset n => ⟨n, []⟩
  | .insert i item =>
    if i ≤ h.length then { h with insertions := h.insertions ++ [(i, item)] } else h
  | .holds _ _ | .cell _ | .last => h

/-- The history of a session that began with the empty chart of a word of `n`
tokens. -/
def ofCommands (n : Nat) (commands : List Command) : History := commands.foldl record ⟨n, []⟩

/-- The items inserted at a position, repetitions kept. -/
def insertedAt (h : History) (i : Nat) : List Item :=
  (h.insertions.filter (·.1 = i)).map Prod.snd

/-- The items inserted at a position, each where it comes first. -/
def itemsAt (h : History) (i : Nat) : List Item := (h.insertedAt i).eraseDups

/-- How many items there are at each position. -/
def sizes (h : History) : List Nat := (List.range (h.length + 1)).map fun i => (h.itemsAt i).length

/-- The reply to a command. -/
def reply (h : History) : Command → Reply
  | .reset n => .emptied (h.record (.reset n)).sizes
  | .insert i item =>
    if i ≤ h.length then
      .inserted (item ∉ h.insertedAt i) (h.record (.insert i item)).sizes
    else .refused
  | .holds i item => if i ≤ h.length then .held (item ∈ h.insertedAt i) else .refused
  | .cell i => if i ≤ h.length then .items (h.itemsAt i) else .refused
  | .last => .items (h.itemsAt h.length)

end History

/-- The commands of a session that were not refused, in their order. -/
def accepted (c : Chart) (commands : List Command) : List Command :=
  ((commands.zip (c.replay commands).1).filter (·.2 ≠ .refused)).map Prod.fst

end ContextFree.Chart
