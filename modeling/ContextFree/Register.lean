/-!
# Registers

A *register* is a list without repetitions that grows at its end.  What is
inserted a second time changes nothing, so the members stand in the order of
their first insertion.  The symbol tables of a grammar and the cells of a chart
are registers.

The view of a register is `toList`.  `toList_insert_of_mem` and
`toList_insert_of_not_mem` say what an insertion does to it, and `nodup_insert`
that it never makes a member occur twice.
-/

namespace ContextFree

/-- A list of distinct members in the order of their first insertion. -/
structure Register (α : Type) where
  /-- The members, oldest first. -/
  toList : List α := []
deriving DecidableEq, Repr

namespace Register

variable {α : Type}

instance : EmptyCollection (Register α) := ⟨{}⟩

instance : Inhabited (Register α) := ⟨∅⟩

instance : Membership α (Register α) := ⟨fun r x => x ∈ r.toList⟩

/-- The number of members. -/
def size (r : Register α) : Nat := r.toList.length

/-- The member with index `i`, if there is one. -/
def get? (r : Register α) (i : Nat) : Option α := r.toList[i]?

@[simp] theorem toList_empty : (∅ : Register α).toList = [] := rfl

theorem mem_iff {r : Register α} {x : α} : x ∈ r ↔ x ∈ r.toList := Iff.rfl

variable [DecidableEq α]

instance (x : α) (r : Register α) : Decidable (x ∈ r) :=
  inferInstanceAs (Decidable (x ∈ r.toList))

/-- Puts `x` at the end, unless it is a member already. -/
def insert (r : Register α) (x : α) : Register α :=
  if x ∈ r then r else ⟨r.toList ++ [x]⟩

/-- The distinct elements of a list in the order of their first occurrence. -/
def ofList (xs : List α) : Register α := xs.foldl insert ∅

/-- The index of a member.  For anything else it is `r.size`, the index of no
member. -/
def idxOf (r : Register α) (x : α) : Nat := r.toList.idxOf x

/-- The index of `x`, if `x` is a member. -/
def idxOf? (r : Register α) (x : α) : Option Nat :=
  if x ∈ r then some (r.idxOf x) else none

/-! ## The members after an operation -/

variable {r : Register α} {x y : α}

theorem toList_insert_of_mem (h : x ∈ r) : (r.insert x).toList = r.toList := by
  simp only [insert, if_pos h]

theorem toList_insert_of_not_mem (h : x ∉ r) : (r.insert x).toList = r.toList ++ [x] := by
  simp only [insert, if_neg h]

@[simp] theorem mem_insert : x ∈ r.insert y ↔ x ∈ r ∨ x = y := by
  by_cases h : y ∈ r
  · rw [mem_iff, toList_insert_of_mem h, ← mem_iff]
    exact ⟨Or.inl, fun hx => hx.elim id fun e => e ▸ h⟩
  · rw [mem_iff, toList_insert_of_not_mem h, List.mem_append, List.mem_singleton, ← mem_iff]

theorem nodup_insert (h : r.toList.Nodup) (x : α) : (r.insert x).toList.Nodup := by
  by_cases hx : x ∈ r
  · rwa [toList_insert_of_mem hx]
  · rw [toList_insert_of_not_mem hx, List.nodup_append]
    refine ⟨h, by simp, fun a ha b hb => ?_⟩
    rw [List.mem_singleton] at hb
    exact fun e => hx (hb ▸ e ▸ ha)

/-- An insertion keeps the old members where they were. -/
theorem toList_isPrefix_insert (r : Register α) (x : α) :
    r.toList <+: (r.insert x).toList := by
  by_cases hx : x ∈ r
  · exact (toList_insert_of_mem hx).symm ▸ List.prefix_rfl
  · rw [toList_insert_of_not_mem hx]
    exact List.prefix_append ..

theorem mem_foldl_insert (xs : List α) (r : Register α) :
    x ∈ xs.foldl insert r ↔ x ∈ r ∨ x ∈ xs := by
  induction xs generalizing r with
  | nil => simp
  | cons y ys ih => rw [List.foldl_cons, ih, mem_insert, List.mem_cons, or_assoc]

@[simp] theorem mem_ofList {xs : List α} : x ∈ ofList xs ↔ x ∈ xs := by
  rw [ofList, mem_foldl_insert]
  simp [mem_iff]

theorem nodup_foldl_insert (xs : List α) (r : Register α) (h : r.toList.Nodup) :
    (xs.foldl insert r).toList.Nodup := by
  induction xs generalizing r with
  | nil => exact h
  | cons y ys ih => exact ih _ (nodup_insert h y)

theorem nodup_ofList (xs : List α) : (ofList xs).toList.Nodup :=
  nodup_foldl_insert xs ∅ List.nodup_nil

/-! ## Indices -/

@[simp] theorem isSome_idxOf? : (r.idxOf? x).isSome ↔ x ∈ r := by
  by_cases h : x ∈ r <;> simp [idxOf?, h]

theorem idxOf_lt_size : r.idxOf x < r.size ↔ x ∈ r := List.idxOf_lt_length_iff

theorem get?_idxOf (h : x ∈ r) : r.get? (r.idxOf x) = some x := by
  have hlt : r.toList.idxOf x < r.toList.length := List.idxOf_lt_length_iff.2 h
  rw [get?, idxOf, List.getElem?_eq_getElem hlt, List.getElem_idxOf hlt]

end Register

end ContextFree
