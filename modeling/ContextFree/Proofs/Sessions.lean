import ContextFree.Chart.History
import ContextFree.Proofs.Taking

/-!
# Sessions follow their history

A session on a chart answers as its history says, and its cells hold what the
history says they hold (`Chart.replay_eq_history`).

*One command.*  A history `Describes` a chart when the chart has a cell for each
position and each cell has the items inserted there, in the order in which they
were first inserted.  Then it also tells the reply to the next command, and after
the command it describes the chart again (`Describes.execute`).

*Many commands.*  So it is for any number of commands, by induction on them
(`Describes.replay`).

*Refused commands.*  A command that is refused leaves the chart as it was, so the
commands after it find what they would have found without it.  This needs no
history and holds from any chart (`Chart.replay_accepted`).
-/

namespace ContextFree

/-! ## Registers -/

/-- A register of the distinct elements of a list, in the order in which they
come first, stays one when an element is put at the end. -/
theorem Register.toList_insert_eq_eraseDups {α : Type} [DecidableEq α] {r : Register α}
    {xs : List α} (h : r.toList = xs.eraseDups) (x : α) :
    (r.insert x).toList = (xs ++ [x]).eraseDups := by
  have hmem : x ∈ r ↔ x ∈ xs := by rw [mem_iff, h, List.mem_eraseDups]
  rw [List.eraseDups_append]
  by_cases hx : x ∈ xs
  · rw [toList_insert_of_mem (hmem.2 hx), h, List.cons_removeAll]
    simp [hx]
  · rw [toList_insert_of_not_mem (mt hmem.1 hx), h, List.cons_removeAll]
    simp [hx, List.eraseDups_cons]

namespace Chart

/-! ## Commands -/

variable {c : Chart} {command : Command} {i j : Nat} {item : Item}

theorem execute_of_not_rejects (h : ¬ c.rejects command = true) :
    c.execute command = c.perform command := if_neg h

/-- An insertion at a position of the chart tells whether the item is new there. -/
theorem execute_insert (hi : i < c.cells.size) :
    c.execute (.insert i item) =
      (.inserted (item ∉ c.cell i) (c.put i item).sizes, c.put i item) := by
  have hnot : ¬ c.rejects (.insert i item) = true := by simpa [rejects] using hi
  rw [execute_of_not_rejects hnot, perform, put, insert?_eq hi]
  by_cases hm : item ∈ c.cell i <;> simp [hm]

theorem replay_cons (c : Chart) (command : Command) (commands : List Command) :
    c.replay (command :: commands) =
      ((c.execute command).1 :: ((c.execute command).2.replay commands).1,
        ((c.execute command).2.replay commands).2) := rfl

theorem execute_eq_of_refused (h : (c.execute command).1 = .refused) :
    (c.execute command).2 = c := by
  by_cases hr : c.rejects command = true
  · rw [execute_of_rejects hr]
  · rw [execute_of_not_rejects hr] at h ⊢
    cases command with
    | reset | holds | cell | last => cases h
    | insert i item =>
      rw [perform] at h ⊢
      split at h <;> cases h

/-- An insertion leaves the cells at other positions alone. -/
theorem cell_execute_insert_of_ne (hj : j ≠ i) :
    (c.execute (.insert i item)).2.cell j = c.cell j := by
  by_cases hi : i < c.cells.size
  · rw [execute_insert hi, cell_put_of_ne hj]
  · rw [execute_of_rejects (by simpa [rejects] using hi)]

/-! ## Histories -/

/-- The chart has what was inserted. -/
structure History.Describes (h : History) (c : Chart) : Prop where
  /-- There is a cell for each position. -/
  size : c.cells.size = h.length + 1
  /-- It holds the items inserted there, oldest first. -/
  cells : ∀ i, (c.cell i).toList = h.itemsAt i

namespace History

variable {h : History} {n : Nat}

theorem insertedAt_record_insert (hi : i ≤ h.length) :
    (h.record (.insert i item)).insertedAt j =
      h.insertedAt j ++ if i = j then [item] else [] := by
  rw [record, if_pos hi, insertedAt, insertedAt, List.filter_append, List.map_append]
  by_cases hij : i = j <;> simp [hij]

namespace Describes

theorem blank (n : Nat) : Describes ⟨n, []⟩ (Chart.blank n) := by
  refine ⟨size_blank, fun i => ?_⟩
  rw [cell_blank]
  rfl

theorem lt_size_iff (hd : h.Describes c) : i < c.cells.size ↔ i ≤ h.length := by
  rw [hd.size, Nat.lt_succ_iff]

theorem mem_cell_iff (hd : h.Describes c) : item ∈ c.cell i ↔ item ∈ h.insertedAt i := by
  rw [Register.mem_iff, hd.cells, itemsAt, List.mem_eraseDups]

theorem sizes_eq (hd : h.Describes c) : c.sizes = h.sizes := by
  rw [Chart.sizes_eq, hd.size, History.sizes]
  exact List.map_congr_left fun i _ => congrArg List.length (hd.cells i)

theorem put (hd : h.Describes c) (hi : i ≤ h.length) (item : Item) :
    (h.record (.insert i item)).Describes (c.put i item) := by
  refine ⟨?_, fun j => ?_⟩
  · rw [size_put, hd.size, record, if_pos hi]
  · rw [itemsAt, insertedAt_record_insert hi]
    by_cases hij : i = j
    · subst hij
      rw [cell_put (hd.lt_size_iff.2 hi), if_pos rfl]
      exact Register.toList_insert_eq_eraseDups (hd.cells i) item
    · rw [cell_put_of_ne (Ne.symm hij), if_neg hij, List.append_nil, hd.cells, itemsAt]

/-- What the chart rejects is refused and leaves no mark in the history. -/
theorem of_rejects (hd : h.Describes c) (hr : c.rejects command = true) :
    h.reply command = .refused ∧ h.record command = h := by
  cases command with
  | reset | last => cases hr
  | insert i item =>
    have hi : ¬ i ≤ h.length := mt hd.lt_size_iff.2 (by simpa [rejects] using hr)
    exact ⟨if_neg hi, if_neg hi⟩
  | holds i item =>
    have hi : ¬ i ≤ h.length := mt hd.lt_size_iff.2 (by simpa [rejects] using hr)
    exact ⟨if_neg hi, rfl⟩
  | cell i =>
    have hi : ¬ i ≤ h.length := mt hd.lt_size_iff.2 (by simpa [rejects] using hr)
    exact ⟨if_neg hi, rfl⟩

/-- The history tells the reply to the next command, and describes the chart
after it. -/
theorem execute (hd : h.Describes c) (command : Command) :
    (c.execute command).1 = h.reply command ∧
      (h.record command).Describes (c.execute command).2 := by
  by_cases hr : c.rejects command = true
  · obtain ⟨hreply, hrecord⟩ := hd.of_rejects hr
    rw [execute_of_rejects hr, hreply, hrecord]
    exact ⟨rfl, hd⟩
  · cases command with
    | reset n => exact ⟨congrArg Reply.emptied (blank n).sizes_eq, blank n⟩
    | insert i item =>
      have hlt : i < c.cells.size := by simpa [rejects] using hr
      have hi : i ≤ h.length := hd.lt_size_iff.1 hlt
      have hput := hd.put hi item
      rw [execute_insert hlt, reply, if_pos hi]
      refine ⟨?_, hput⟩
      simp only [hd.mem_cell_iff, hput.sizes_eq]
    | holds i item =>
      have hi : i ≤ h.length := hd.lt_size_iff.1 (by simpa [rejects] using hr)
      rw [execute_of_not_rejects hr, reply, if_pos hi]
      refine ⟨?_, hd⟩
      simp only [perform, hd.mem_cell_iff]
    | cell i =>
      have hi : i ≤ h.length := hd.lt_size_iff.1 (by simpa [rejects] using hr)
      rw [execute_of_not_rejects hr, reply, if_pos hi]
      exact ⟨congrArg Reply.items (hd.cells i), hd⟩
    | last =>
      refine ⟨congrArg Reply.items ?_, hd⟩
      rw [last, hd.cells, hd.size, Nat.add_sub_cancel]

/-- So it is for any number of commands.  The reply to each of them is told by
the history of those before it. -/
theorem replay (hd : h.Describes c) (commands : List Command) :
    (c.replay commands).1 =
        commands.mapIdx (fun k command => ((commands.take k).foldl record h).reply command) ∧
      (commands.foldl record h).Describes (c.replay commands).2 := by
  induction commands generalizing h c with
  | nil => exact ⟨rfl, hd⟩
  | cons command commands ih =>
    obtain ⟨hreply, hnext⟩ := hd.execute command
    obtain ⟨hreplies, hlast⟩ := ih hnext
    refine ⟨?_, hlast⟩
    rw [List.mapIdx_cons, replay_cons, hreply, hreplies]
    rfl

end Describes

end History

/-! ## Refused commands -/

theorem accepted_cons_of_refused {commands : List Command}
    (h : (c.execute command).1 = .refused) :
    c.accepted (command :: commands) = c.accepted commands := by
  have hstay := execute_eq_of_refused h
  simp [accepted, replay, h, hstay]

theorem accepted_cons_of_ne {commands : List Command} (h : (c.execute command).1 ≠ .refused) :
    c.accepted (command :: commands) =
      command :: (c.execute command).2.accepted commands := by
  simp [accepted, replay, h]

/-- Without the commands that are refused the chart is the same, and so are the
other replies. -/
theorem replay_accepted (c : Chart) (commands : List Command) :
    c.replay (c.accepted commands) =
      ((c.replay commands).1.filter (· ≠ .refused), (c.replay commands).2) := by
  induction commands generalizing c with
  | nil => rfl
  | cons command commands ih =>
    by_cases h : (c.execute command).1 = .refused
    · have hstay := execute_eq_of_refused h
      rw [accepted_cons_of_refused h, ih]
      simp [replay, h, hstay]
    · rw [accepted_cons_of_ne h, replay_cons, replay_cons, ih,
        List.filter_cons_of_pos (by rwa [decide_eq_true_iff])]

/-- A session that begins with an empty chart is told by its history, command by
command and at the end.  In particular an insertion is answered by whether the
item is new at its position since the last reset.  Insertions change no other
cell, and what is refused changes nothing and need not have been asked. -/
theorem replay_eq_history (n : Nat) (commands : List Command) :
    ((blank n).replay commands).1 = commands.mapIdx (fun k command =>
        (History.ofCommands n (commands.take k)).reply command) ∧
      ((blank n).replay commands).2.cells.size =
        (History.ofCommands n commands).length + 1 ∧
      (∀ i, (((blank n).replay commands).2.cell i).toList =
        ((History.ofCommands n commands).insertedAt i).eraseDups) ∧
      (∀ (c : Chart) (i : Nat) (item : Item), ∀ j ≠ i,
        (c.execute (.insert i item)).2.cell j = c.cell j) ∧
      (∀ (c : Chart) (command : Command), (c.execute command).1 = .refused →
        (c.execute command).2 = c) ∧
      (blank n).replay ((blank n).accepted commands) =
        (((blank n).replay commands).1.filter (· ≠ .refused), ((blank n).replay commands).2) := by
  obtain ⟨hreplies, hlast⟩ := (History.Describes.blank n).replay commands
  exact ⟨hreplies, hlast.size, hlast.cells, fun _ _ _ _ hj => cell_execute_insert_of_ne hj,
    fun _ _ h => execute_eq_of_refused h, replay_accepted (blank n) commands⟩

/-- Insertions at both positions of a chart and behind them, and after a reset
the same again, when there is one position only. -/
def restarted : List Command :=
  [.insert 0 ⟨0, 0, 0⟩, .insert 1 ⟨0, 1, 0⟩, .insert 2 ⟨0, 0, 2⟩, .insert 0 ⟨0, 0, 0⟩,
    .reset 0, .insert 1 ⟨0, 1, 0⟩, .insert 0 ⟨0, 0, 0⟩, .last]

/-- The same item is new, then not, and then new again. -/
theorem replay_eq_history_restarted :
    ((blank 1).replay restarted).1 =
        [.inserted true [1, 0], .inserted true [1, 1], .refused, .inserted false [1, 1],
          .emptied [0], .refused, .inserted true [1], .items [⟨0, 0, 0⟩]] ∧
      (((blank 1).replay restarted).2.cell 0).toList = [⟨0, 0, 0⟩] ∧
      1 ≠ 0 ∧ ((blank 1).execute (.insert 0 ⟨0, 0, 0⟩)).2.cell 1 = (blank 1).cell 1 ∧
      ((blank 1).execute (.insert 2 ⟨0, 0, 2⟩)).1 = .refused ∧
      ((blank 1).execute (.insert 2 ⟨0, 0, 2⟩)).2 = blank 1 ∧
      (blank 1).accepted restarted = [.insert 0 ⟨0, 0, 0⟩, .insert 1 ⟨0, 1, 0⟩,
        .insert 0 ⟨0, 0, 0⟩, .reset 0, .insert 0 ⟨0, 0, 0⟩, .last] ∧
      ((blank 1).replay ((blank 1).accepted restarted)).1 =
        [.inserted true [1, 0], .inserted true [1, 1], .inserted false [1, 1], .emptied [0],
          .inserted true [1], .items [⟨0, 0, 0⟩]] := by
  obtain ⟨hreplies, -, hcells, hframe, hrefused, haccepted⟩ := replay_eq_history 1 restarted
  have hbeyond : ((blank 1).execute (.insert 2 ⟨0, 0, 2⟩)).1 = .refused := by decide
  refine ⟨hreplies.trans (by decide), (hcells 0).trans (by decide), by decide,
    hframe _ 0 _ 1 (by decide), hbeyond, hrefused _ _ hbeyond, by decide +kernel, ?_⟩
  rw [haccepted, hreplies]
  decide

end Chart

end ContextFree
