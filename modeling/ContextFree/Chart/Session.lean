import ContextFree.Chart.Basic

/-!
# Chart sessions

A *session* works on a chart by commands: start over with an empty chart, insert
an item, and look at what is held.  Each command has a reply.  A command that
names a position beyond the last cell is refused and changes nothing.
-/

namespace ContextFree.Chart

/-- A command to a chart. -/
inductive Command where
  /-- Start over with the empty chart of a word of `n` tokens. -/
  | reset (n : Nat)
  /-- Insert an item at a position. -/
  | insert (position : Nat) (item : Item)
  /-- Ask whether an item is held at a position. -/
  | holds (position : Nat) (item : Item)
  /-- Ask for the items at a position. -/
  | cell (position : Nat)
  /-- Ask for the items of the last cell. -/
  | last
deriving DecidableEq, Repr

/-- What is answered to a command. -/
inductive Reply where
  /-- The cells were emptied and have these sizes. -/
  | emptied (sizes : List Nat)
  /-- The item was taken or was there already, and the cells have these sizes. -/
  | inserted (isNew : Bool) (sizes : List Nat)
  /-- Whether the item is held. -/
  | held (yes : Bool)
  /-- The items, oldest first. -/
  | items (held : List Item)
  /-- There is no such position. -/
  | refused
deriving DecidableEq, Repr

/-- Whether a command names a position that the chart does not have. -/
def rejects (c : Chart) : Command → Bool
  | .insert i _ | .holds i _ | .cell i => c.cells.size ≤ i
  | .reset _ | .last => false

/-- Carries out a command that names no missing position. -/
def perform (c : Chart) : Command → Reply × Chart
  | .reset n => (.emptied (blank n).sizes, blank n)
  | .insert i item =>
    match c.insert? i item with
    | none => (.inserted false c.sizes, c)
    | some c' => (.inserted true c'.sizes, c')
  | .holds i item => (.held (item ∈ c.cell i), c)
  | .cell i => (.items (c.cell i).toList, c)
  | .last => (.items c.last.toList, c)

/-- The reply to a command, and the chart after it. -/
def execute (c : Chart) (command : Command) : Reply × Chart :=
  if c.rejects command then (.refused, c) else c.perform command

/-- The replies to a list of commands, and the chart after them. -/
def replay (c : Chart) : List Command → List Reply × Chart
  | [] => ([], c)
  | command :: commands =>
    let (reply, c') := c.execute command
    let (replies, c'') := c'.replay commands
    (reply :: replies, c'')

theorem execute_of_rejects {c : Chart} {command : Command} (h : c.rejects command = true) :
    c.execute command = (.refused, c) := if_pos h

end ContextFree.Chart
