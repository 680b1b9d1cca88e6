import Mathlib.Data.List.Infix
import ContextFree.Proofs.Prefixes

/-!
# The moments of a position

Items are taken at a position one by one, while its cell still grows.  At moment
`k` the first `k` items of the cell were taken, or all of them if there are
fewer, and the others wait in their order (`Grammar.exists_taken_moment`).

What a cell holds at one moment is the front of what it holds at a later one
(`Grammar.cell_drain_isPrefix`), since an item is only ever added at the end.  So
the items come to be taken in the order of the finished cell: the one that is
next at moment `k` is the `k`-th of them, and when they are all taken none waits
(`Grammar.head?_pending_moment`).
-/

namespace ContextFree

open Grammar (ofProductions)

/-! ## Cells grow at the end -/

namespace Chart

variable {c : Chart} {item : Item} {i j : Nat}

theorem cell_put_isPrefix : (c.cell j).toList <+: ((c.put i item).cell j).toList := by
  cases h : c.insert? i item with
  | none => rw [put, h, Option.getD_none]
  | some c' =>
    rw [put, h, Option.getD_some]
    by_cases hij : i = j
    · subst hij
      rw [cell_of_insert?_eq_some h]
      exact Register.toList_isPrefix_insert _ item
    · rw [cell_of_insert?_eq_some_of_ne h hij]

theorem cell_foldl_put_isPrefix (items : List Item) :
    (c.cell j).toList <+: ((items.foldl (put · i) c).cell j).toList := by
  induction items generalizing c with
  | nil => exact List.prefix_rfl
  | cons x items ih => exact cell_put_isPrefix.trans ih

end Chart

namespace Grammar

variable {g : Grammar} {tokens : Array (Option TermId)} {s : Progress} {item : Item} {i j : Nat}

theorem cell_take_isPrefix :
    (s.chart.cell j).toList <+: ((g.take tokens i s item).chart.cell j).toList := by
  rcases take_cases g tokens i s item with ⟨kind, items, h⟩ | ⟨-, h⟩ | h
  · rw [h, Progress.chart_foldl_offer]
    exact Chart.cell_foldl_put_isPrefix items
  · rw [h, Progress.chart_handOn]
    exact Chart.cell_put_isPrefix
  · rw [h]

theorem cell_drain_isPrefix (fuel : Nat) :
    (s.chart.cell j).toList <+: ((g.drain tokens i fuel s).chart.cell j).toList := by
  induction fuel generalizing s with
  | zero => exact List.prefix_rfl
  | succ fuel ih =>
    rw [drain]
    split
    · exact List.prefix_rfl
    · rename_i item rest _
      exact (cell_take_isPrefix (s := { s with pending := rest })).trans ih

/-! ## Further moments -/

theorem drain_of_pending_eq_nil (h : s.pending = []) (fuel : Nat) :
    g.drain tokens i fuel s = s := by
  cases fuel with
  | zero => rfl
  | succ fuel => rw [drain, h]

theorem drain_add (m n : Nat) :
    g.drain tokens i (m + n) s = g.drain tokens i n (g.drain tokens i m s) := by
  induction m generalizing s with
  | zero => rw [Nat.zero_add, drain]
  | succ m ih =>
    cases hpend : s.pending with
    | nil => rw [drain_of_pending_eq_nil hpend, drain_of_pending_eq_nil hpend,
        drain_of_pending_eq_nil hpend]
    | cons item rest => simp only [Nat.succ_add, drain, hpend, ih]

variable {ps : List Production} {word : List Symbol} {k : Nat}

/-- At moment `k` the first `k` items of the cell were taken, as far as there
are so many, and otherwise none waits. -/
theorem exists_taken_moment (h : ofProductions ps = .ok g) (hi : i ≤ word.length) (k : Nat) :
    ∃ taken, Underway ps g.start word i taken (g.moment word i k) ∧ taken.length ≤ k ∧
      ((g.moment word i k).pending = [] ∨ taken.length = k) := by
  have hs := underway_reached h word (Nat.le_succ_of_le hi)
  have hdrain := drain_induction (motive := Underway ps g.start word i)
    (fun _ _ _ _ hpend ht => ht.take h hi hpend) k hs
  rwa [List.length_nil, Nat.zero_add] at hdrain

/-- When a position has had its capacity none waits. -/
theorem pending_moment_capacity (h : ofProductions ps = .ok g) (hi : i ≤ word.length) :
    (g.moment word i (g.capacity i)).pending = [] := by
  obtain ⟨taken, -, hpend⟩ := (underway_reached h word (Nat.le_succ_of_le hi)).drain_capacity h hi
  exact hpend

/-- Then the items taken are those of the finished cell. -/
theorem toList_cell_of_underway {taken : List Item} (h : ofProductions ps = .ok g)
    (hi : i ≤ word.length)
    (ht : Underway ps g.start word i taken (g.moment word i (g.capacity i))) :
    ((g.chart word).cell i).toList = taken := by
  have hqueue := ht.queue
  rw [pending_moment_capacity h hi, List.append_nil] at hqueue
  rw [← hqueue, cell_chart_of_lt (Nat.lt_succ_self i) (Nat.succ_le_succ hi), reached_succ]
  rfl

/-- From any moment, taking as many items as the capacity allows finishes the
cell. -/
theorem cell_drain_moment (h : ofProductions ps = .ok g) (hi : i ≤ word.length) (k : Nat) :
    (g.drain (g.tokenIds word) i (g.capacity i) (g.moment word i k)).chart.cell i =
      (g.chart word).cell i := by
  have hlast := pending_moment_capacity h hi
  have hmore : g.drain (g.tokenIds word) i (g.capacity i) (g.moment word i k) =
      g.moment word i (g.capacity i) := by
    rw [moment, ← drain_add, Nat.add_comm, drain_add]
    exact drain_of_pending_eq_nil hlast k
  rw [hmore, cell_chart_of_lt (Nat.lt_succ_self i) (Nat.succ_le_succ hi), reached_succ]
  rfl

/-- At any moment the items taken and those that wait are the front of the
finished cell. -/
theorem queue_moment_isPrefix {taken : List Item} (h : ofProductions ps = .ok g)
    (hi : i ≤ word.length) (ht : Underway ps g.start word i taken (g.moment word i k)) :
    taken ++ (g.moment word i k).pending <+: ((g.chart word).cell i).toList := by
  rw [← ht.queue, ← cell_drain_moment h hi k]
  exact cell_drain_isPrefix (g.capacity i)

/-- The item that is next at moment `k` is the `k`-th of the finished cell. -/
theorem head?_pending_moment (h : ofProductions ps = .ok g) (hi : i ≤ word.length) (k : Nat) :
    (g.moment word i k).pending.head? = ((g.chart word).cell i).toList[k]? := by
  obtain ⟨taken, ht, hle, hend⟩ := exists_taken_moment h hi k
  cases hpend : (g.moment word i k).pending with
  | nil =>
    have hqueue := ht.queue
    rw [hpend, List.append_nil] at hqueue
    rw [← cell_drain_moment h hi k, drain_of_pending_eq_nil hpend, hqueue,
      List.getElem?_eq_none hle]
    rfl
  | cons item rest =>
    obtain ⟨more, hmore⟩ := queue_moment_isPrefix h hi ht
    rw [hpend] at hend hmore
    obtain rfl := hend.resolve_left (List.cons_ne_nil item rest)
    rw [← hmore, List.append_assoc, List.getElem?_append_right (Nat.le_refl _), Nat.sub_self]
    rfl

end Grammar

end ContextFree
