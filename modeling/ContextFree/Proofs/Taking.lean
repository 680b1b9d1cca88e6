import ContextFree.Proofs.Saturation
import ContextFree.Recognition.Verdict

/-!
# What taking an item does

An item is put into a cell by `Progress.offer` and `Progress.handOn`, and both
do the same to the chart (`Chart.put`).  They differ in the list that the item
waits in, and that list always follows the cell (`Progress.queue_offer`,
`Progress.queue_handOn`).

Taking an item is one of three things for every grammar (`Grammar.take_cases`):
a list of items is offered to the current cell, or the item is handed on
advanced, or nothing happens.  So only the current cell and the next can change
(`Grammar.cell_take_of_ne`).

For a grammar built from productions, `Adds` says in words of the productions
which items are put where, and the cells afterwards hold these and what they
held before (`Grammar.mem_cell_take`).
-/

namespace ContextFree

/-! ## Charts -/

namespace Chart

variable {c c' : Chart} {i j n : Nat} {item x : Item}

/-- The chart with an item at a position, whether it was there before or not. -/
def put (c : Chart) (i : Nat) (item : Item) : Chart := (c.insert? i item).getD c

theorem sizes_eq (c : Chart) :
    c.sizes = (List.range c.cells.size).map fun i => (c.cell i).size := by
  refine List.ext_getElem (by simp [sizes]) fun i hi _ => ?_
  have hi' : i < c.cells.size := by simpa [sizes] using hi
  simp [sizes, cell, Array.getD_eq_getD_getElem?, hi']

theorem size_of_insert?_eq_some (h : c.insert? i item = some c') :
    c'.cells.size = c.cells.size := by
  rw [insert?] at h
  split at h
  · cases h
  · split at h
    · cases h
    · obtain rfl := Option.some.inj h
      exact Array.size_setIfInBounds

@[simp] theorem size_blank : (blank n).cells.size = n + 1 := Array.size_replicate

@[simp] theorem size_put : (c.put i item).cells.size = c.cells.size := by
  cases h : c.insert? i item with
  | none => rw [put, h, Option.getD_none]
  | some c' => rw [put, h, Option.getD_some, size_of_insert?_eq_some h]

theorem insert?_eq (hi : i < c.cells.size) :
    c.insert? i item = if item ∈ c.cell i then none else some (c.put i item) := by
  cases h : c.insert? i item with
  | none => rw [if_pos (insert?_eq_none_iff.1 h hi)]
  | some c' =>
    have hm : item ∉ c.cell i := by
      intro hm
      rw [insert?_eq_none_iff.2 fun _ => hm] at h
      cases h
    rw [if_neg hm, put, h, Option.getD_some]

theorem cell_put (hi : i < c.cells.size) : (c.put i item).cell i = (c.cell i).insert item := by
  cases h : c.insert? i item with
  | none =>
    have hm : item ∈ c.cell i := insert?_eq_none_iff.1 h hi
    rw [put, h, Option.getD_none, Register.insert, if_pos hm]
  | some c' => rw [put, h, Option.getD_some, cell_of_insert?_eq_some h]

theorem cell_put_of_ne (hj : j ≠ i) : (c.put i item).cell j = c.cell j := by
  cases h : c.insert? i item with
  | none => rw [put, h, Option.getD_none]
  | some c' => rw [put, h, Option.getD_some, cell_of_insert?_eq_some_of_ne h (Ne.symm hj)]

@[simp] theorem size_foldl_put (items : List Item) (c : Chart) :
    (items.foldl (put · i) c).cells.size = c.cells.size := by
  induction items generalizing c with
  | nil => rfl
  | cons x items ih => rw [List.foldl_cons, ih, size_put]

theorem cell_foldl_put (items : List Item) (hi : i < c.cells.size) :
    (items.foldl (put · i) c).cell i = items.foldl Register.insert (c.cell i) := by
  induction items generalizing c with
  | nil => rfl
  | cons x items ih => rw [List.foldl_cons, ih (by rwa [size_put]), cell_put hi, List.foldl_cons]

theorem cell_foldl_put_of_ne (items : List Item) (hj : j ≠ i) :
    (items.foldl (put · i) c).cell j = c.cell j := by
  induction items generalizing c with
  | nil => rfl
  | cons x items ih => rw [List.foldl_cons, ih, cell_put_of_ne hj]

/-- The cells hold what was put there and what they held. -/
theorem mem_cell_foldl_put (items : List Item) (hi : i < c.cells.size) :
    x ∈ (items.foldl (put · i) c).cell j ↔ x ∈ c.cell j ∨ j = i ∧ x ∈ items := by
  by_cases hj : j = i
  · subst hj
    rw [cell_foldl_put items hi, Register.mem_foldl_insert, and_iff_right rfl]
  · rw [cell_foldl_put_of_ne items hj]
    exact ⟨.inl, fun h => h.elim id fun h => absurd h.1 hj⟩

theorem mem_cell_put (hi : i < c.cells.size) :
    x ∈ (c.put i item).cell j ↔ x ∈ c.cell j ∨ j = i ∧ x = item := by
  have h : x ∈ (c.put i item).cell j ↔ x ∈ c.cell j ∨ j = i ∧ x ∈ [item] :=
    mem_cell_foldl_put [item] hi
  rwa [List.mem_singleton] at h

theorem nodup_put (h : ∀ j, (c.cell j).toList.Nodup) (j : Nat) :
    ((c.put i item).cell j).toList.Nodup := by
  cases hins : c.insert? i item with
  | none => rw [put, hins]; exact h j
  | some c' =>
    rw [put, hins, Option.getD_some]
    by_cases hj : j = i
    · subst hj
      rw [cell_of_insert?_eq_some hins]
      exact Register.nodup_insert (h j) item
    · rw [cell_of_insert?_eq_some_of_ne hins (Ne.symm hj)]
      exact h j

theorem nodup_foldl_put (items : List Item) (h : ∀ j, (c.cell j).toList.Nodup) (j : Nat) :
    ((items.foldl (put · i) c).cell j).toList.Nodup := by
  induction items generalizing c with
  | nil => exact h j
  | cons x items ih => exact ih (nodup_put h)

end Chart

/-! ## Lists of waiting items -/

namespace Progress

variable {s : Progress} {i j : Nat} {item : Item} {taken items : List Item}

@[simp] theorem chart_note {kind : StepKind} : (s.note kind i item).chart = s.chart := rfl

@[simp] theorem chart_offer : (s.offer i item).chart = s.chart.put i item := by
  rw [offer, Chart.put]
  split <;> rename_i h <;> rw [h] <;> rfl

@[simp] theorem chart_handOn : (s.handOn i item).chart = s.chart.put i item := by
  rw [handOn, Chart.put]
  split <;> rename_i h <;> rw [h] <;> rfl

@[simp] theorem scanned_offer : (s.offer i item).scanned = s.scanned := by
  rw [offer]
  split <;> rfl

@[simp] theorem pending_handOn : (s.handOn i item).pending = s.pending := by
  rw [handOn]
  split <;> rfl

/-- What is offered waits behind what waited, if it is new. -/
theorem pending_offer (hi : i < s.chart.cells.size) :
    (s.offer i item).pending =
      if item ∈ s.chart.cell i then s.pending else s.pending ++ [item] := by
  rw [offer, Chart.insert?_eq hi]
  by_cases hm : item ∈ s.chart.cell i <;> simp [hm]

/-- What is handed on waits behind what was handed on, if it is new. -/
theorem scanned_handOn (hi : i < s.chart.cells.size) :
    (s.handOn i item).scanned =
      if item ∈ s.chart.cell i then s.scanned else s.scanned ++ [item] := by
  rw [handOn, Chart.insert?_eq hi]
  by_cases hm : item ∈ s.chart.cell i <;> simp [hm]

/-- What was taken and what waits stay the cell. -/
theorem queue_offer (hi : i < s.chart.cells.size)
    (h : (s.chart.cell i).toList = taken ++ s.pending) :
    ((s.offer i item).chart.cell i).toList = taken ++ (s.offer i item).pending := by
  rw [chart_offer, Chart.cell_put hi, pending_offer hi]
  split
  · rename_i hm
    rwa [Register.toList_insert_of_mem hm]
  · rename_i hm
    rw [Register.toList_insert_of_not_mem hm, h, List.append_assoc]

/-- What was handed on stays the cell. -/
theorem queue_handOn (hi : i < s.chart.cells.size) (h : (s.chart.cell i).toList = s.scanned) :
    ((s.handOn i item).chart.cell i).toList = (s.handOn i item).scanned := by
  rw [chart_handOn, Chart.cell_put hi, scanned_handOn hi]
  split
  · rename_i hm
    rwa [Register.toList_insert_of_mem hm]
  · rename_i hm
    rw [Register.toList_insert_of_not_mem hm, h]

@[simp] theorem chart_foldl_offer (items : List Item) (s : Progress) :
    (items.foldl (offer i) s).chart = items.foldl (Chart.put · i) s.chart := by
  induction items generalizing s with
  | nil => rfl
  | cons x items ih => rw [List.foldl_cons, ih, chart_offer, List.foldl_cons]

@[simp] theorem scanned_foldl_offer (items : List Item) (s : Progress) :
    (items.foldl (offer i) s).scanned = s.scanned := by
  induction items generalizing s with
  | nil => rfl
  | cons x items ih => rw [List.foldl_cons, ih, scanned_offer]

theorem queue_foldl_offer (items : List Item) {s : Progress} (hi : i < s.chart.cells.size)
    (h : (s.chart.cell i).toList = taken ++ s.pending) :
    ((items.foldl (offer i) s).chart.cell i).toList =
      taken ++ (items.foldl (offer i) s).pending := by
  induction items generalizing s with
  | nil => exact h
  | cons x items ih =>
    have hx : i < (s.offer i x).chart.cells.size := by rwa [chart_offer, Chart.size_put]
    exact ih hx (queue_offer hi h)

end Progress

/-! ## Any grammar -/

namespace Grammar

variable {g : Grammar} {tokens : Array (Option TermId)} {s : Progress} {item : Item} {i j : Nat}

/-- Taking an item offers items to its cell, or hands it on, or does nothing. -/
theorem take_cases (g : Grammar) (tokens : Array (Option TermId)) (i : Nat) (s : Progress)
    (item : Item) :
    (∃ kind, ∃ items : List Item,
        g.take tokens i s item = items.foldl (Progress.offer i) (s.note kind i item)) ∨
      (i < tokens.size ∧
        g.take tokens i s item = (s.note .scan i item).handOn (i + 1) item.advance) ∨
      g.take tokens i s item = s := by
  rw [take]
  split
  · exact .inl ⟨.complete, _, rfl⟩
  · exact .inl ⟨.predict, _, rfl⟩
  · split
    · rename_i htok
      exact .inr (.inl ⟨(Array.getElem?_eq_some_iff.1 htok).1, rfl⟩)
    · exact .inr (.inr rfl)

@[simp] theorem size_take : (g.take tokens i s item).chart.cells.size = s.chart.cells.size := by
  rcases take_cases g tokens i s item with ⟨kind, items, h⟩ | ⟨-, h⟩ | h
  · rw [h, Progress.chart_foldl_offer, Chart.size_foldl_put]
    rfl
  · rw [h, Progress.chart_handOn, Chart.size_put]
    rfl
  · rw [h]

/-- Only the cell at the position and the next one can change. -/
theorem cell_take_of_ne (hj : j ≠ i) (hj' : j ≠ i + 1) :
    (g.take tokens i s item).chart.cell j = s.chart.cell j := by
  rcases take_cases g tokens i s item with ⟨kind, items, h⟩ | ⟨-, h⟩ | h
  · rw [h, Progress.chart_foldl_offer, Chart.cell_foldl_put_of_ne _ hj]
    rfl
  · rw [h, Progress.chart_handOn, Chart.cell_put_of_ne hj']
    rfl
  · rw [h]

theorem cell_take_of_lt (hj : j < i) :
    (g.take tokens i s item).chart.cell j = s.chart.cell j :=
  cell_take_of_ne (Nat.ne_of_lt hj) (Nat.ne_of_lt (Nat.lt_succ_of_lt hj))

theorem queue_take {taken : List Item} (hi : i < s.chart.cells.size)
    (h : (s.chart.cell i).toList = taken ++ s.pending) :
    ((g.take tokens i s item).chart.cell i).toList =
      taken ++ (g.take tokens i s item).pending := by
  rcases take_cases g tokens i s item with ⟨kind, items, ht⟩ | ⟨-, ht⟩ | ht
  · rw [ht]
    exact Progress.queue_foldl_offer items hi h
  · rw [ht, Progress.chart_handOn, Chart.cell_put_of_ne (Nat.ne_of_lt (Nat.lt_succ_self i)),
      Progress.pending_handOn]
    exact h
  · rwa [ht]

theorem handed_take (hsize : s.chart.cells.size = tokens.size + 1)
    (h : (s.chart.cell (i + 1)).toList = s.scanned) :
    ((g.take tokens i s item).chart.cell (i + 1)).toList = (g.take tokens i s item).scanned := by
  rcases take_cases g tokens i s item with ⟨kind, items, ht⟩ | ⟨hi, ht⟩ | ht
  · rw [ht, Progress.chart_foldl_offer, Chart.cell_foldl_put_of_ne _ (Nat.succ_ne_self i),
      Progress.scanned_foldl_offer]
    exact h
  · have hlt : i + 1 < (s.note .scan i item).chart.cells.size := by
      show i + 1 < s.chart.cells.size
      omega
    rw [ht]
    exact Progress.queue_handOn hlt h
  · rwa [ht]

/-- No cell comes to hold an item twice. -/
theorem nodup_take (h : ∀ j, (s.chart.cell j).toList.Nodup) (j : Nat) :
    ((g.take tokens i s item).chart.cell j).toList.Nodup := by
  rcases take_cases g tokens i s item with ⟨kind, items, ht⟩ | ⟨-, ht⟩ | ht
  · rw [ht, Progress.chart_foldl_offer]
    exact Chart.nodup_foldl_put items h j
  · rw [ht, Progress.chart_handOn]
    exact Chart.nodup_put h j
  · rw [ht]
    exact h j

/-- What each item taken keeps holds after any number of them.  Either that
number was taken, or fewer and nothing waits. -/
theorem drain_induction {motive : List Item → Progress → Prop}
    (step : ∀ taken s item rest, s.pending = item :: rest → motive taken s →
      motive (taken ++ [item]) (g.take tokens i { s with pending := rest } item))
    (fuel : Nat) {taken : List Item} {s : Progress} (init : motive taken s) :
    ∃ taken', motive taken' (g.drain tokens i fuel s) ∧
      taken'.length ≤ taken.length + fuel ∧
      ((g.drain tokens i fuel s).pending = [] ∨ taken'.length = taken.length + fuel) := by
  induction fuel generalizing taken s with
  | zero => exact ⟨taken, init, Nat.le_refl _, .inr rfl⟩
  | succ fuel ih =>
    rw [drain]
    split
    · rename_i hnil
      exact ⟨taken, init, Nat.le_add_right .., .inl hnil⟩
    · rename_i item rest hcons
      obtain ⟨taken', hm, hle, hend⟩ := ih (step taken s item rest hcons init)
      rw [List.length_append, List.length_singleton] at hle hend
      exact ⟨taken', hm, by omega, hend.imp_right fun hlen => by omega⟩

end Grammar

/-! ## A grammar built from productions -/

/-- What taking `item` at position `i` adds to which cell.  `held` is what is
read of the cell where the item began. -/
inductive Adds (ps : List Production) (word : List Symbol) (held : Nat → Item → Prop) (i : Nat)
    (item : Item) : Nat → Item → Prop
  /-- The productions of an awaited nonterminal begin. -/
  | predict {b : Symbol} {n : Nat} :
      item.Awaits ps b → (Item.fresh n i).HasLhs ps b → Adds ps word held i item i (.fresh n i)
  /-- An awaited nonterminal that yields the empty word is passed over. -/
  | skip {b : Symbol} :
      item.Awaits ps b → Yields ps [b] [] → Adds ps word held i item i item.advance
  /-- A finished item advances what awaited its left-hand side at its origin. -/
  | complete {b : Symbol} {parent : Item} :
      item.Finished ps → item.HasLhs ps b → held item.origin parent → parent.Awaits ps b →
      Adds ps word held i item i parent.advance
  /-- An awaited terminal that is the next token is passed over. -/
  | scan {token : Symbol} :
      item.Awaits ps token → word[i]? = some token → ¬ IsLhs ps token →
      Adds ps word held i item (i + 1) item.advance

namespace Adds

variable {ps : List Production} {word : List Symbol} {held held' : Nat → Item → Prop}
variable {i j : Nat} {item x : Item} {b : Symbol}

theorem mono (h : ∀ k y, held k y → held' k y) (ha : Adds ps word held i item j x) :
    Adds ps word held' i item j x := by
  cases ha with
  | predict hb hn => exact .predict hb hn
  | skip hb hy => exact .skip hb hy
  | complete hf hl hp hb => exact .complete hf hl (h _ _ hp) hb
  | scan hb ht hterm => exact .scan hb ht hterm

/-! Of the four ways to add, the next symbol of the item leaves one or two. -/

theorem iff_of_finished (hf : item.Finished ps) (hl : item.HasLhs ps b) :
    Adds ps word held i item j x ↔
      j = i ∧ ∃ parent, held item.origin parent ∧ parent.Awaits ps b ∧ x = parent.advance := by
  constructor
  · intro hadds
    cases hadds with
    | complete _ hl' hp ha =>
      obtain rfl := hl.unique hl'
      exact ⟨rfl, _, hp, ha, rfl⟩
    | predict ha => exact absurd hf ha.not_finished
    | skip ha => exact absurd hf ha.not_finished
    | scan ha => exact absurd hf ha.not_finished
  · rintro ⟨rfl, parent, hp, ha, rfl⟩
    exact .complete hf hl hp ha

theorem iff_of_awaits (ha : item.Awaits ps b) (hb : IsLhs ps b) :
    Adds ps word held i item j x ↔
      j = i ∧ ((∃ n, (Item.fresh n i).HasLhs ps b ∧ x = .fresh n i) ∨
        Yields ps [b] [] ∧ x = item.advance) := by
  constructor
  · intro hadds
    cases hadds with
    | predict ha' hn =>
      obtain rfl := ha.unique ha'
      exact ⟨rfl, .inl ⟨_, hn, rfl⟩⟩
    | skip ha' hy =>
      obtain rfl := ha.unique ha'
      exact ⟨rfl, .inr ⟨hy, rfl⟩⟩
    | complete hf => exact absurd hf ha.not_finished
    | scan ha' _ hterm => exact absurd (ha.unique ha' ▸ hb) hterm
  · rintro ⟨rfl, ⟨n, hn, rfl⟩ | ⟨hy, rfl⟩⟩
    · exact .predict ha hn
    · exact .skip ha hy

theorem iff_of_awaits_term (ha : item.Awaits ps b) (hb : ¬ IsLhs ps b) :
    Adds ps word held i item j x ↔ word[i]? = some b ∧ j = i + 1 ∧ x = item.advance := by
  constructor
  · intro hadds
    cases hadds with
    | scan ha' ht =>
      obtain rfl := ha.unique ha'
      exact ⟨ht, rfl, rfl⟩
    | predict ha' hn => exact absurd (ha.unique ha' ▸ hn.isLhs) hb
    | skip ha' hy => exact absurd (ha.unique ha' ▸ hy.isLhs_of_nil) hb
    | complete hf => exact absurd hf ha.not_finished
  · rintro ⟨ht, rfl, rfl⟩
    exact .scan ha ht hb

end Adds

namespace Grammar

variable {ps : List Production} {g : Grammar} {word : List Symbol} {s : Progress}
variable {p : Production} {item x : Item} {b : Symbol} {i j : Nat}

@[simp] theorem size_tokenIds (g : Grammar) (word : List Symbol) :
    (g.tokenIds word).size = word.length := by
  simp [tokenIds]

/-- The first items are those of the start symbol. -/
theorem mem_cell_seed (h : ofProductions ps = .ok g) {n : Nat} :
    x ∈ (g.seed n).chart.cell j ↔
      j = 0 ∧ ∃ m, (Item.fresh m 0).HasLhs ps g.start ∧ x = .fresh m 0 := by
  rw [seed, Progress.chart_foldl_offer, Chart.mem_cell_foldl_put _ (by simp), Chart.cell_blank,
    List.mem_map]
  constructor
  · rintro (hx | ⟨rfl, m, hm, rfl⟩)
    · cases hx
    · exact ⟨rfl, m, (mem_alternativesAt h).1 hm, rfl⟩
  · rintro ⟨rfl, m, hm, rfl⟩
    exact .inr ⟨rfl, m, (mem_alternativesAt h).2 hm, rfl⟩

theorem mem_predictions (h : ofProductions ps = .ok g) (hb : IsLhs ps b) :
    x ∈ g.predictions i item (g.vocabulary.nonterm b) ↔
      (∃ n, (Item.fresh n i).HasLhs ps b ∧ x = .fresh n i) ∨
        Yields ps [b] [] ∧ x = item.advance := by
  rw [predictions, List.mem_append, List.mem_map]
  refine or_congr ?_ ?_
  · constructor
    · rintro ⟨n, hn, rfl⟩
      exact ⟨n, (mem_alternativesAt h).1 hn, rfl⟩
    · rintro ⟨n, hn, rfl⟩
      exact ⟨n, (mem_alternativesAt h).2 hn, rfl⟩
  · rw [← nullableAt_iff_yields h hb]
    split
    · rename_i hnull
      rw [List.mem_singleton, and_iff_right hnull]
    · rename_i hnull
      exact ⟨fun hm => (List.not_mem_nil hm).elim, fun hm => absurd hm.1 hnull⟩

theorem mem_completions (h : ofProductions ps = .ok g) (hp : item.Of ps p) {chart : Chart} :
    x ∈ g.completions chart item ↔
      ∃ parent ∈ chart.cell item.origin, parent.Awaits ps p.lhs ∧ x = parent.advance := by
  have hlhs : IsLhs ps p.lhs := ⟨p, hp.mem, rfl⟩
  simp only [completions, lhs?_of h hp, List.mem_map, List.mem_filter, decide_eq_true_iff,
    next?_eq_nonterm_iff h hlhs]
  constructor
  · rintro ⟨parent, ⟨hm, ha⟩, rfl⟩
    exact ⟨parent, hm, ha, rfl⟩
  · rintro ⟨parent, hm, ha, rfl⟩
    exact ⟨parent, ⟨hm, ha⟩, rfl⟩

theorem take_of_finished (h : ofProductions ps = .ok g) (hf : item.Finished ps) :
    g.take (g.tokenIds word) i s item =
      (g.completions s.chart item).foldl (Progress.offer i) (s.note .complete i item) := by
  rw [take, next?_of_finished h hf]

theorem take_of_awaits (h : ofProductions ps = .ok g) (ha : item.Awaits ps b)
    (hb : IsLhs ps b) :
    g.take (g.tokenIds word) i s item =
      (g.predictions i item (g.vocabulary.nonterm b)).foldl (Progress.offer i)
        (s.note .predict i item) := by
  have hn := next?_of_awaits h ha
  rw [ref_of_isLhs h hb] at hn
  rw [take, hn]

theorem take_of_awaits_term (h : ofProductions ps = .ok g) (ha : item.Awaits ps b)
    (hb : ¬ IsLhs ps b) :
    g.take (g.tokenIds word) i s item =
      if word[i]? = some b then (s.note .scan i item).handOn (i + 1) item.advance else s := by
  have hn := next?_of_awaits h ha
  rw [ref_of_not_isLhs h hb] at hn
  simp only [take, hn, tokenIds_eq_some_iff h ha hb]

/-- After an item is taken the cells hold what they held and what taking it
adds. -/
theorem mem_cell_take (h : ofProductions ps = .ok g) (hp : item.Of ps p)
    (hsize : s.chart.cells.size = word.length + 1) (hi : i ≤ word.length) :
    x ∈ (g.take (g.tokenIds word) i s item).chart.cell j ↔
      x ∈ s.chart.cell j ∨ Adds ps word (fun k y => y ∈ s.chart.cell k) i item j x := by
  have hlt : i < s.chart.cells.size := by omega
  rcases hp.cases with hf | ⟨b, hb, ha⟩ | ⟨token, hterm, ha⟩
  · rw [take_of_finished h hf, Progress.chart_foldl_offer, Progress.chart_note,
      Chart.mem_cell_foldl_put _ hlt, mem_completions h hp,
      Adds.iff_of_finished hf ⟨p, hp, rfl⟩]
  · rw [take_of_awaits h ha hb, Progress.chart_foldl_offer, Progress.chart_note,
      Chart.mem_cell_foldl_put _ hlt, mem_predictions h hb, Adds.iff_of_awaits ha hb]
  · rw [take_of_awaits_term h ha hterm, Adds.iff_of_awaits_term ha hterm]
    split
    · rename_i ht
      have hlt' : i + 1 < s.chart.cells.size := by
        have := (List.getElem?_eq_some_iff.1 ht).1
        omega
      rw [Progress.chart_handOn, Progress.chart_note, Chart.mem_cell_put hlt', and_iff_right ht]
    · rename_i ht
      exact ⟨.inl, fun hx => hx.elim id fun hx => absurd hx.1 ht⟩

end Grammar

end ContextFree
