import ContextFree.Chart.Item

/-!
# Charts

A chart has one *cell* for each position of a word, from before its first token
to after its last.  A cell holds items without repetition, in the order in which
they came.  Cells only grow, and an insertion into one leaves the others alone.
-/

namespace ContextFree

/-- The items at one position. -/
abbrev Cell := Register Item

/-- The cells of a word. -/
structure Chart where
  /-- The cells from left to right. -/
  cells : Array Cell
deriving DecidableEq, Repr

namespace Chart

/-- The empty chart of a word of `n` tokens. -/
def blank (n : Nat) : Chart := ⟨Array.replicate (n + 1) ∅⟩

/-- The cell at a position.  Beyond the last one nothing is held. -/
def cell (c : Chart) (i : Nat) : Cell := c.cells.getD i ∅

/-- The last cell. -/
def last (c : Chart) : Cell := c.cell (c.cells.size - 1)

/-- The sizes of the cells from left to right. -/
def sizes (c : Chart) : List Nat := c.cells.toList.map Register.size

/-- The chart with an item added at a position, or `none` if there is nothing to
add: the cell holds the item already, or there is no such cell. -/
def insert? (c : Chart) (i : Nat) (item : Item) : Option Chart :=
  match c.cells[i]? with
  | none => none
  | some held =>
    if item ∈ held then none else some ⟨c.cells.setIfInBounds i (held.insert item)⟩

/-! ## The cells after an insertion -/

variable {c c' : Chart} {i j n : Nat} {item : Item}

@[simp] theorem cell_blank : (blank n).cell i = ∅ := by
  rw [cell, blank, Array.getD_eq_getD_getElem?]
  by_cases h : i < n + 1
  · rw [Array.getElem?_replicate, if_pos h, Option.getD_some]
  · rw [Array.getElem?_replicate, if_neg h, Option.getD_none]

theorem insert?_eq_none_iff :
    c.insert? i item = none ↔ i < c.cells.size → item ∈ c.cell i := by
  rw [insert?, cell, Array.getD_eq_getD_getElem?]
  by_cases h : i < c.cells.size
  · rw [Array.getElem?_eq_getElem h]
    by_cases hm : item ∈ c.cells[i] <;> simp [hm, h]
  · rw [Array.getElem?_eq_none (Nat.le_of_not_lt h)]
    simp [h]

theorem cell_of_insert?_eq_some (h : c.insert? i item = some c') :
    c'.cell i = (c.cell i).insert item := by
  rw [insert?] at h
  split at h
  · exact absurd h (by simp)
  · rename_i held hc
    split at h
    · exact absurd h (by simp)
    · obtain ⟨hi, rfl⟩ := Array.getElem?_eq_some_iff.1 hc
      obtain rfl := Option.some.inj h
      simp [cell, Array.getD_eq_getD_getElem?, hi]

theorem cell_of_insert?_eq_some_of_ne (h : c.insert? i item = some c') (hj : i ≠ j) :
    c'.cell j = c.cell j := by
  rw [insert?] at h
  split at h
  · exact absurd h (by simp)
  · split at h
    · exact absurd h (by simp)
    · obtain rfl := Option.some.inj h
      simp [cell, Array.getD_eq_getD_getElem?, hj]

end Chart

end ContextFree
