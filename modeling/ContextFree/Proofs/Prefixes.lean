import ContextFree.Proofs.Membership

/-!
# Runs on words with a common prefix

Two words whose first `m` tokens are the same have the same cells up to `m`,
with their items in the same order (`Grammar.cell_eq_of_take_eq`).

The two runs are compared side by side.  `Agree` says that they have the same
cells up to `m` and the same waiting items.  Before `m` it also says that the
same items were handed on.  At `m` it does not, since one word may go on where
the other ends, but what is handed on there is behind `m` and waits apart.
Completion reads the cell at the origin of its item, which is not behind the
position, so it finds the same parents in both runs.

Later positions do not matter either, as taking an item leaves all cells before
its position alone (`Grammar.cell_moment_of_lt`).
-/

namespace ContextFree

open Grammar (ofProductions)

/-- Two runs at position `i` that cannot be told apart up to position `m`. -/
structure Agree (m i : Nat) (s t : Progress) : Prop where
  size_left : m < s.chart.cells.size
  size_right : m < t.chart.cells.size
  /-- The same items wait. -/
  pending : s.pending = t.pending
  /-- Before `m` the same items were handed on. -/
  scanned : i < m → s.scanned = t.scanned
  /-- The cells up to `m` are the same. -/
  cells : ∀ j ≤ m, s.chart.cell j = t.chart.cell j

/-- An item put into two charts leaves them with the same cell where they had
the same. -/
theorem Chart.cell_put_congr {c d : Chart} {item : Item} {i j : Nat} (hc : i < c.cells.size)
    (hd : i < d.cells.size) (h : c.cell j = d.cell j) :
    (c.put i item).cell j = (d.put i item).cell j := by
  by_cases hj : j = i
  · subst hj
    rw [cell_put hc, cell_put hd, h]
  · rw [cell_put_of_ne hj, cell_put_of_ne hj, h]

theorem Grammar.tokenIds_eq_of_take_eq (g : Grammar) {word word' : List Symbol} {m i : Nat}
    (htake : word.take m = word'.take m) (hi : i < m) :
    (g.tokenIds word)[i]? = (g.tokenIds word')[i]? := by
  rw [tokenIds, tokenIds, List.getElem?_toArray, List.getElem?_toArray, List.getElem?_map,
    List.getElem?_map, ← List.getElem?_take_of_lt hi, htake, List.getElem?_take_of_lt hi]

namespace Agree

variable {ps : List Production} {g : Grammar} {word word' : List Symbol}
variable {s t : Progress} {item : Item} {taken : List Item} {m i : Nat}

theorem offer (hi : i ≤ m) (h : Agree m i s t) (item : Item) :
    Agree m i (s.offer i item) (t.offer i item) := by
  have hs : i < s.chart.cells.size := Nat.lt_of_le_of_lt hi h.size_left
  have ht : i < t.chart.cells.size := Nat.lt_of_le_of_lt hi h.size_right
  refine ⟨?_, ?_, ?_, fun hlt => ?_, fun j hj => ?_⟩
  · simpa using h.size_left
  · simpa using h.size_right
  · rw [Progress.pending_offer hs, Progress.pending_offer ht, h.pending, h.cells i hi]
  · rw [Progress.scanned_offer, Progress.scanned_offer, h.scanned hlt]
  · rw [Progress.chart_offer, Progress.chart_offer]
    exact Chart.cell_put_congr hs ht (h.cells j hj)

theorem foldl_offer (hi : i ≤ m) (items : List Item) (h : Agree m i s t) :
    Agree m i (items.foldl (Progress.offer i) s) (items.foldl (Progress.offer i) t) := by
  induction items generalizing s t with
  | nil => exact h
  | cons x items ih => exact ih (h.offer hi x)

/-- What is handed on before `m` is the same in both runs. -/
theorem handOn (hi : i < m) (h : Agree m i s t) (item : Item) :
    Agree m i (s.handOn (i + 1) item) (t.handOn (i + 1) item) := by
  have hs : i + 1 < s.chart.cells.size := Nat.lt_of_le_of_lt hi h.size_left
  have ht : i + 1 < t.chart.cells.size := Nat.lt_of_le_of_lt hi h.size_right
  refine ⟨?_, ?_, ?_, fun _ => ?_, fun j hj => ?_⟩
  · simpa using h.size_left
  · simpa using h.size_right
  · rw [Progress.pending_handOn, Progress.pending_handOn, h.pending]
  · rw [Progress.scanned_handOn hs, Progress.scanned_handOn ht, h.scanned hi, h.cells _ hi]
  · rw [Progress.chart_handOn, Progress.chart_handOn]
    exact Chart.cell_put_congr hs ht (h.cells j hj)

theorem symm (h : Agree m i s t) : Agree m i t s :=
  ⟨h.size_right, h.size_left, h.pending.symm, fun hi => (h.scanned hi).symm,
    fun j hj => (h.cells j hj).symm⟩

theorem note_left (h : Agree m i s t) (kind : StepKind) (item : Item) :
    Agree m i (s.note kind i item) t :=
  ⟨h.size_left, h.size_right, h.pending, h.scanned, h.cells⟩

theorem note (h : Agree m i s t) (kind : StepKind) (item : Item) :
    Agree m i (s.note kind i item) (t.note kind i item) :=
  ((h.note_left kind item).symm.note_left kind item).symm

/-- What is handed on at `m` does not matter. -/
theorem handOn_left (h : Agree m m s t) (item : Item) : Agree m m (s.handOn (m + 1) item) t := by
  refine ⟨?_, h.size_right, ?_, fun hlt => absurd hlt (Nat.lt_irrefl m), fun j hj => ?_⟩
  · simpa using h.size_left
  · rw [Progress.pending_handOn, h.pending]
  · rw [Progress.chart_handOn, Chart.cell_put_of_ne (by omega), h.cells j hj]

/-- So at `m` it does not matter whether a token is scanned. -/
theorem scan_left (h : Agree m m s t) (item : Item) (token : Prop) [Decidable token] :
    Agree m m (if token then (s.note .scan m item).handOn (m + 1) item.advance else s) t := by
  split
  · exact (h.note_left .scan item).handOn_left item.advance
  · exact h

/-! ## Steps -/

/-- Taking an item that began up to `m` keeps two runs alike. -/
theorem take {tokens tokens' : Array (Option TermId)} (hi : i ≤ m) (horigin : item.origin ≤ m)
    (htok : i < m → tokens[i]? = tokens'[i]?) (h : Agree m i s t) :
    Agree m i (g.take tokens i s item) (g.take tokens' i t item) := by
  rw [Grammar.take, Grammar.take]
  rcases item.next? g with - | b | a
  · have hcomp : g.completions s.chart item = g.completions t.chart item := by
      rw [Grammar.completions, Grammar.completions, h.cells _ horigin]
    simp only [hcomp]
    exact (h.note .complete item).foldl_offer hi _
  · exact (h.note .predict item).foldl_offer hi _
  · rcases Nat.lt_or_eq_of_le hi with hlt | rfl
    · simp only [htok hlt]
      split
      · exact (h.note .scan item).handOn hlt item.advance
      · exact h
    · exact ((h.scan_left item _).symm.scan_left item _).symm

/-- So does taking any number of items. -/
theorem drain (hg : ofProductions ps = .ok g) (hm : m ≤ word.length)
    (htake : word.take m = word'.take m) (hi : i ≤ m) (fuel : Nat)
    (hs : Underway ps g.start word i taken s) (h : Agree m i s t) :
    Agree m i (g.drain (g.tokenIds word) i fuel s) (g.drain (g.tokenIds word') i fuel t) := by
  induction fuel generalizing taken s t with
  | zero => exact h
  | succ fuel ih =>
    rw [Grammar.drain, Grammar.drain, ← h.pending]
    split
    · exact h
    · rename_i item rest hpend
      have hitem := hs.sound i item (hs.mem_of_pending hpend)
      have horigin : item.origin ≤ m := Nat.le_trans hitem.valid.origin_le hi
      have hrest : Agree m i { s with pending := rest } { t with pending := rest } :=
        ⟨h.size_left, h.size_right, rfl, h.scanned, h.cells⟩
      have hnext := hrest.take (g := g) hi horigin fun hlt => g.tokenIds_eq_of_take_eq htake hlt
      exact ih (hs.take hg (Nat.le_trans hi hm) hpend) hnext

theorem seed (g : Grammar) {n n' : Nat} (hn : m ≤ n) (hn' : m ≤ n') :
    Agree m 0 (g.seed n) (g.seed n') := by
  refine foldl_offer (Nat.zero_le m) _ ⟨?_, ?_, rfl, fun _ => rfl, fun j _ => ?_⟩
  · show m < (Chart.blank n).cells.size
    rw [Chart.size_blank]
    omega
  · show m < (Chart.blank n').cells.size
    rw [Chart.size_blank]
    omega
  · show (Chart.blank n).cell j = (Chart.blank n').cell j
    rw [Chart.cell_blank, Chart.cell_blank]

/-- Two runs on words that share their first `m` tokens are alike up to `m`. -/
theorem reached (hg : ofProductions ps = .ok g) (hm : m ≤ word.length) (hm' : m ≤ word'.length)
    (htake : word.take m = word'.take m) (hi : i ≤ m) :
    Agree m i (g.reached word i) (g.reached word' i) := by
  induction i with
  | zero => exact .seed g hm hm'
  | succ i ih =>
    have hle : i ≤ m := Nat.le_of_succ_le hi
    have hs := Grammar.underway_reached hg word (k := i) (by omega)
    have h := (ih hle).drain hg hm htake hle (g.capacity i) hs
    rw [Grammar.reached_succ, Grammar.reached_succ]
    refine ⟨h.size_left, h.size_right, ?_, fun _ => rfl, h.cells⟩
    show _ ++ _ = _ ++ _
    rw [h.pending, h.scanned hi]

end Agree

namespace Grammar

variable {ps : List Production} {g : Grammar} {word word' : List Symbol}
variable {s : Progress} {m i j k : Nat}

/-! ## Closed positions -/

/-- Taking items at a position leaves the cells before it alone. -/
theorem cell_drain_of_lt {tokens : Array (Option TermId)} (hj : j < i) (fuel : Nat) :
    (g.drain tokens i fuel s).chart.cell j = s.chart.cell j := by
  induction fuel generalizing s with
  | zero => rfl
  | succ fuel ih =>
    rw [drain]
    split
    · rfl
    · rw [ih, cell_take_of_lt hj]

theorem cell_reached_of_lt (hj : j < i) (hik : i ≤ k) :
    (g.reached word k).chart.cell j = (g.reached word i).chart.cell j := by
  induction hik with
  | refl => rfl
  | @step k hik ih =>
    rw [reached_succ, ← ih]
    exact cell_drain_of_lt (Nat.lt_of_lt_of_le hj hik) (g.capacity k)

/-- At every moment of a later position a cell is as it was when its position
was closed. -/
theorem cell_moment_of_lt (hj : j < i) (hik : i ≤ k) (fuel : Nat) :
    (g.moment word k fuel).chart.cell j = (g.reached word i).chart.cell j := by
  rw [moment, cell_drain_of_lt (Nat.lt_of_lt_of_le hj hik), cell_reached_of_lt hj hik]

theorem cell_chart_of_lt (hj : j < i) (hi : i ≤ word.length + 1) :
    (g.chart word).cell j = (g.reached word i).chart.cell j :=
  cell_reached_of_lt hj hi

/-! ## Common prefixes -/

/-- Words that share their first `m` tokens have the same cells up to `m`. -/
theorem cell_eq_of_take_eq (h : ofProductions ps = .ok g) (hm : m ≤ word.length)
    (hm' : m ≤ word'.length) (htake : word.take m = word'.take m) (hj : j ≤ m) :
    (g.chart word).cell j = (g.chart word').cell j := by
  have hs := underway_reached h word (k := m) (by omega)
  have hstart := Agree.reached h hm hm' htake (Nat.le_refl m)
  have hend := hstart.drain h hm htake (Nat.le_refl m) (g.capacity m) hs
  rw [cell_chart_of_lt (Nat.lt_succ_of_le hj) (Nat.succ_le_succ hm),
    cell_chart_of_lt (Nat.lt_succ_of_le hj) (Nat.succ_le_succ hm'), reached_succ, reached_succ]
  exact hend.cells j hj

/-- The cell at a position tells whether the tokens before it are a word of the
language. -/
theorem recognizes_take_iff (h : ofProductions ps = .ok g) (hm : m ≤ word.length) :
    g.recognizes (word.take m) = true ↔ ∃ item ∈ (g.chart word).cell m,
      item.origin = 0 ∧ item.Finished ps ∧ item.HasLhs ps g.start := by
  have hlen : (word.take m).length = m := by rw [List.length_take, Nat.min_eq_left hm]
  have htake : (word.take m).take m = word.take m := by rw [List.take_take, Nat.min_self]
  rw [recognizes_iff_mem h, hlen,
    cell_eq_of_take_eq h (Nat.le_of_eq hlen.symm) hm htake (Nat.le_refl m)]

/-- Cells depend on the tokens before them only.  Those of a word are the first
cells of any continuation of it, no cell changes after its position is closed,
and the cell at `m` decides whether the first `m` tokens are recognized. -/
theorem cells_prefix_stable (h : ofProductions ps = .ok g) :
    (∀ u v, ∀ j ≤ u.length, (g.chart (u ++ v)).cell j = (g.chart u).cell j) ∧
      (∀ word : List Symbol, ∀ i ≤ word.length, ∀ j ≤ i,
        (g.chart word).cell j = (g.reached word (i + 1)).chart.cell j ∧
          ∀ k, i < k → ∀ fuel,
            (g.moment word k fuel).chart.cell j = (g.reached word (i + 1)).chart.cell j) ∧
      (∀ word word' : List Symbol, ∀ m ≤ word.length, m ≤ word'.length →
        word.take m = word'.take m → (g.chart word).cell m = (g.chart word').cell m) ∧
      ∀ word : List Symbol, ∀ m ≤ word.length,
        (g.recognizes (word.take m) = true ↔ ∃ item ∈ (g.chart word).cell m,
          item.origin = 0 ∧ item.Finished ps ∧ item.HasLhs ps g.start) := by
  refine ⟨fun u v j hj => ?_, fun word i hi j hj => ⟨?_, fun k hk fuel => ?_⟩,
    fun word word' m hm hm' htake => ?_, fun word m hm => recognizes_take_iff h hm⟩
  · have hlen : u.length ≤ (u ++ v).length := by
      rw [List.length_append]
      exact Nat.le_add_right ..
    have htake : (u ++ v).take u.length = u.take u.length := by
      rw [List.take_left, List.take_length]
    exact cell_eq_of_take_eq h hlen (Nat.le_refl _) htake hj
  · exact cell_chart_of_lt (Nat.lt_succ_of_le hj) (Nat.succ_le_succ hi)
  · exact cell_moment_of_lt (Nat.lt_succ_of_le hj) hk fuel
  · exact cell_eq_of_take_eq h hm hm' htake (Nat.le_refl m)

theorem cells_prefix_stable_twoNullables :
    ofProductions twoNullables = .ok (ofStart "S" twoNullables) ∧
      ((ofStart "S" twoNullables).chart ["x", "x"]).cell 1 =
        ((ofStart "S" twoNullables).chart ["x"]).cell 1 ∧
      ((ofStart "S" twoNullables).moment ["x", "x"] 1 1).chart.cell 0 =
        ((ofStart "S" twoNullables).reached ["x", "x"] 1).chart.cell 0 ∧
      (ofStart "S" twoNullables).recognizes ["x"] = true := by
  obtain ⟨hext, hclosed, -, htake⟩ :=
    @cells_prefix_stable twoNullables (ofStart "S" twoNullables) rfl
  refine ⟨rfl, hext ["x"] ["x"] 1 (Nat.le_refl 1), ?_, ?_⟩
  · exact (hclosed ["x", "x"] 0 (by decide) 0 (Nat.le_refl 0)).2 1 Nat.zero_lt_one 1
  · -- The cell belongs to the longer word, which is itself not in the language.
    refine (htake ["x", "x"] 1 (by decide)).2 ⟨⟨0, 3, 0⟩, by decide +kernel, rfl, ?_, ?_⟩
    · exact ⟨_, rfl, Nat.le_refl 3⟩
    · exact ⟨_, rfl, rfl⟩

end Grammar

end ContextFree
