import ContextFree.Proofs.Tables

/-!
# How many items a position can have

The items that follow by the rules at a position `i` have a production of the
grammar and an origin up to `i`, and those with nothing matched began at `i`
itself.  So a list of them without repetition has at most as many members as
there are productions, plus one for each origin and each place behind a symbol
of a right-hand side (`Grammar.length_le_capacity`).
-/

namespace ContextFree

/-- The dots behind a symbol, each with the index of its production. -/
def innerDots (ps : List Production) : List (Nat × Nat) :=
  ps.zipIdx.flatMap fun (p, n) => (List.range p.rhs.length).map fun d => (n, d + 1)

/-- All items that can be at position `i`. -/
def possibleItems (ps : List Production) (i : Nat) : List Item :=
  (List.range ps.length).map (Item.fresh · i) ++
    (List.range (i + 1)).flatMap fun k => (innerDots ps).map fun (n, d) => ⟨n, d, k⟩

variable {ps : List Production} {start : Symbol} {word : List Symbol} {i : Nat} {item : Item}

theorem length_innerDots (ps : List Production) :
    (innerDots ps).length = (ps.flatMap Production.rhs).length := by
  rw [innerDots, List.length_flatMap, List.length_flatMap]
  simp only [List.length_map, List.length_range]
  show (ps.zipIdx.map ((fun p => p.rhs.length) ∘ Prod.fst)).sum = _
  rw [← List.map_map, List.zipIdx_map_fst]

theorem length_possibleItems (ps : List Production) (i : Nat) :
    (possibleItems ps i).length = ps.length + (i + 1) * (ps.flatMap Production.rhs).length := by
  rw [possibleItems, List.length_append, List.length_map, List.length_range, List.length_flatMap]
  simp only [List.length_map, length_innerDots]
  rw [List.map_const', List.sum_replicate_nat, List.length_range]

/-- An item with nothing matched is at its origin. -/
theorem Entailed.origin_eq (h : Entailed ps start word i item) (hdot : item.dot = 0) :
    item.origin = i := by
  cases h with
  | seed => rfl
  | predict => rfl
  | complete => cases hdot
  | scan => cases hdot

theorem Entailed.mem_possibleItems (h : Entailed ps start word i item) :
    item ∈ possibleItems ps i := by
  obtain ⟨p, hp, hle, -⟩ := h.valid.fits
  have hlt : item.production < ps.length := (List.getElem?_eq_some_iff.1 hp).1
  rw [possibleItems, List.mem_append]
  rcases hdot : item.dot with - | d
  · left
    refine List.mem_map.2 ⟨item.production, List.mem_range.2 hlt, ?_⟩
    rw [← h.origin_eq hdot, Item.fresh, ← hdot]
  · right
    have horigin : item.origin < i + 1 := Nat.lt_succ_of_le h.valid.origin_le
    have hd : d < p.rhs.length := by omega
    have hinner : (item.production, d + 1) ∈ innerDots ps := by
      refine List.mem_flatMap.2 ⟨(p, item.production), ?_, ?_⟩
      · exact List.mk_mem_zipIdx_iff_getElem?.2 hp
      · exact List.mem_map_of_mem (List.mem_range.2 hd)
    refine List.mem_flatMap.2 ⟨item.origin, List.mem_range.2 horigin, ?_⟩
    refine List.mem_map.2 ⟨_, hinner, ?_⟩
    rw [← hdot]

/-- A position has no more items than its capacity. -/
theorem Grammar.length_le_capacity {g : Grammar} (h : ofProductions ps = .ok g)
    {items : List Item} (hnodup : items.Nodup)
    (hall : ∀ item ∈ items, Entailed ps start word i item) : items.length ≤ g.capacity i := by
  have hsub : items ⊆ possibleItems ps i := fun item hm => (hall item hm).mem_possibleItems
  have hle := hnodup.length_le_of_subset hsub
  rwa [length_possibleItems, ← productions_of_ofProductions_eq_ok h] at hle

end ContextFree
