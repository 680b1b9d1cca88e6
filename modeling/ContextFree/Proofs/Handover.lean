import ContextFree.Proofs.Traces

/-!
# From one cell to the next

What is scanned at a position waits apart, while the items of the position are
still being taken and more of them come in.  And yet the next cell begins with
the scanning items of the finished cell, advanced, in the order of that cell
(`Grammar.cell_succ_eq_handedOn_append`).

*No scan is lost.*  The items handed on are those that scan among the items
taken, in their order (`Handing`).  To keep this when one more is taken, its
advance must not be in the next cell yet.  The next cell has only advances of
items taken, and an item that comes to be taken was not taken before
(`Handing.advance_not_mem`).

*Nothing else matches a token.*  What the next cell holds besides comes by
prediction or by completion.  The one puts the dot at the front and the other
behind a nonterminal (`Entailed.exists_scans_or`).  If nothing is handed
on, there is nothing to begin with.
-/

namespace ContextFree

open Grammar (ofProductions)

variable {ps : List Production} {start : Symbol} {word : List Symbol} {g : Grammar}
variable {s : Progress} {taken rest : List Item} {item x : Item} {b : Symbol} {i k : Nat}

/-! ## Items that scan -/

namespace Item

/-- The item awaits a terminal, and that is the token at position `i`. -/
def Scans (item : Item) (ps : List Production) (word : List Symbol) (i : Nat) : Prop :=
  ∃ token, item.Awaits ps token ∧ word[i]? = some token ∧ ¬ IsLhs ps token

/-- The symbol right before the dot is a nonterminal. -/
def PassedNonterminal (item : Item) (ps : List Production) : Prop :=
  ∃ p b dot, item.Of ps p ∧ item.dot = dot + 1 ∧ p.rhs[dot]? = some b ∧ IsLhs ps b

theorem awaits_iff : item.Awaits ps b ↔ ps[item.production]?.bind (·.rhs[item.dot]?) = some b :=
  Option.bind_eq_some_iff.symm

instance (item : Item) (ps : List Production) (b : Symbol) : Decidable (item.Awaits ps b) :=
  decidable_of_iff _ awaits_iff.symm

theorem scans_iff_of_getElem? {token : Symbol} (ht : word[i]? = some token) :
    item.Scans ps word i ↔ item.Awaits ps token ∧ ¬ IsLhs ps token := by
  constructor
  · rintro ⟨c, ha, hc, hterm⟩
    obtain rfl := Option.some.inj (ht.symm.trans hc)
    exact ⟨ha, hterm⟩
  · rintro ⟨ha, hterm⟩
    exact ⟨token, ha, ht, hterm⟩

instance (item : Item) (ps : List Production) (word : List Symbol) (i : Nat) :
    Decidable (item.Scans ps word i) :=
  match ht : word[i]? with
  | none => .isFalse fun ⟨_, _, hc, _⟩ => by rw [ht] at hc; cases hc
  | some _ => decidable_of_iff _ (scans_iff_of_getElem? ht).symm

theorem advance_inj : item.advance = x.advance ↔ item = x := by
  cases item
  cases x
  simp [advance]

end Item

/-- The items handed on from a cell: those of its items that scan, advanced, in
the order of the cell. -/
def Chart.handedOn (c : Chart) (ps : List Production) (word : List Symbol) (i : Nat) :
    List Item :=
  ((c.cell i).toList.filter (·.Scans ps word i)).map Item.advance

theorem Chart.mem_handedOn {c : Chart} :
    x ∈ c.handedOn ps word i ↔ ∃ item ∈ c.cell i, item.Scans ps word i ∧ item.advance = x := by
  simp only [handedOn, List.mem_map, List.mem_filter, decide_eq_true_iff, Register.mem_iff,
    and_assoc]

theorem Chart.handedOn_eq_nil_iff {c : Chart} :
    c.handedOn ps word i = [] ↔ ∀ item ∈ c.cell i, ¬ item.Scans ps word i := by
  simp only [handedOn, List.map_eq_nil_iff, List.filter_eq_nil_iff, decide_eq_true_iff,
    Register.mem_iff]

/-! ## Items handed on -/

/-- Taking an item hands its advance on if the item scans, and nothing else, as
long as the next cell does not hold the advance already. -/
theorem Grammar.scanned_take {p : Production} (h : ofProductions ps = .ok g)
    (hp : item.Of ps p) (hsize : s.chart.cells.size = word.length + 1)
    (hnew : item.advance ∉ s.chart.cell (i + 1)) :
    (g.take (g.tokenIds word) i s item).scanned =
      s.scanned ++ if item.Scans ps word i then [item.advance] else [] := by
  rcases hp.cases with hf | ⟨b, hb, ha⟩ | ⟨token, hterm, ha⟩
  · have hno : ¬ item.Scans ps word i := fun ⟨_, ha, _⟩ => ha.not_finished hf
    rw [take_of_finished h hf, Progress.scanned_foldl_offer, if_neg hno, List.append_nil]
    rfl
  · have hno : ¬ item.Scans ps word i := fun ⟨_, ha', _, hterm⟩ => hterm (ha.unique ha' ▸ hb)
    rw [take_of_awaits h ha hb, Progress.scanned_foldl_offer, if_neg hno, List.append_nil]
    rfl
  · rw [take_of_awaits_term h ha hterm]
    by_cases ht : word[i]? = some token
    · have hlt : i + 1 < s.chart.cells.size := by
        have := (List.getElem?_eq_some_iff.1 ht).1
        omega
      rw [if_pos ht, if_pos ⟨token, ha, ht, hterm⟩,
        Progress.scanned_handOn (s := s.note .scan i item) hlt]
      exact if_neg hnew
    · have hno : ¬ item.Scans ps word i := fun ⟨_, ha', ht', _⟩ => ht (ha.unique ha' ▸ ht')
      rw [if_neg ht, if_neg hno, List.append_nil]

/-- The position is underway, and what was handed on are the items taken that
scan, advanced and in their order. -/
structure Handing (ps : List Production) (g : Grammar) (word : List Symbol) (i : Nat)
    (taken : List Item) (s : Progress) : Prop extends Underway ps g.start word i taken s where
  scanned : s.scanned = (taken.filter (·.Scans ps word i)).map Item.advance

namespace Handing

/-- An item comes to be taken once, so its advance is not in the next cell
yet. -/
theorem advance_not_mem (hs : Handing ps g word i taken s) (hpend : s.pending = item :: rest) :
    item.advance ∉ s.chart.cell (i + 1) := by
  have hnodup := hs.nodup i
  rw [hs.queue, hpend] at hnodup
  intro hm
  rw [Register.mem_iff, hs.handed, hs.scanned] at hm
  obtain ⟨x, hx, heq⟩ := List.mem_map.1 hm
  obtain rfl := Item.advance_inj.1 heq
  have htaken : x ∈ taken := (List.mem_filter.1 hx).1
  exact (List.nodup_append.1 hnodup).2.2 x htaken x (List.mem_cons_self ..) rfl

theorem take (h : ofProductions ps = .ok g) (hi : i ≤ word.length)
    (hs : Handing ps g word i taken s) (hpend : s.pending = item :: rest) :
    Handing ps g word i (taken ++ [item])
      (g.take (g.tokenIds word) i { s with pending := rest } item) := by
  refine ⟨hs.toUnderway.take h hi hpend, ?_⟩
  obtain ⟨p, hp⟩ := (hs.sound i item (hs.mem_of_pending hpend)).exists_of
  have hadd := Grammar.scanned_take (s := { s with pending := rest }) h hp hs.size
    (hs.advance_not_mem hpend)
  rw [hadd, List.filter_append, List.map_append, ← hs.scanned]
  by_cases hscan : item.Scans ps word i <;> simp [hscan]

end Handing

namespace Grammar

/-- At any moment of a position those of the items taken that scan were handed
on. -/
theorem exists_handing_moment (h : ofProductions ps = .ok g) (hi : i ≤ word.length) (k : Nat) :
    ∃ taken, Handing ps g word i taken (g.moment word i k) := by
  have hturn := underway_reached h word (Nat.le_succ_of_le hi)
  have hnone : (g.reached word i).scanned = [] := by
    cases i with
    | zero => exact Progress.scanned_foldl_offer ..
    | succ i =>
      rw [reached_succ]
      rfl
  obtain ⟨taken, ht, -⟩ := drain_induction (motive := Handing ps g word i)
    (fun _ _ _ _ hpend ht => ht.take h hi hpend) k ⟨hturn, hnone⟩
  exact ⟨taken, ht⟩

/-- The item that is next at a moment is advanced into the next cell for the
first time. -/
theorem isSome_insert?_advance (h : ofProductions ps = .ok g) (hi : i < word.length)
    (hk : ((g.chart word).cell i).toList[k]? = some item) :
    (g.moment word i k).pending.head? = some item ∧
      ((g.moment word i k).chart.insert? (i + 1) item.advance).isSome := by
  have hhead := head?_pending_moment h (Nat.le_of_lt hi) k
  rw [hk] at hhead
  obtain ⟨taken, ht⟩ := exists_handing_moment h (Nat.le_of_lt hi) k
  obtain ⟨rest, hpend⟩ := List.head?_eq_some_iff.1 hhead
  have hlt : i + 1 < (g.moment word i k).chart.cells.size := by
    rw [ht.size]
    exact Nat.succ_lt_succ hi
  refine ⟨hhead, ?_⟩
  rw [Chart.insert?_eq hlt, if_neg (ht.advance_not_mem hpend)]
  rfl

/-- At the turn to the next position the items handed on wait there. -/
theorem pending_reached_succ (h : ofProductions ps = .ok g) (hi : i ≤ word.length) :
    (g.reached word (i + 1)).pending = (g.chart word).handedOn ps word i := by
  obtain ⟨taken, ht⟩ := exists_handing_moment h hi (g.capacity i)
  have hclose : (g.reached word (i + 1)).pending =
      (g.moment word i (g.capacity i)).pending ++ (g.moment word i (g.capacity i)).scanned := by
    rw [reached_succ]
    rfl
  rw [hclose, pending_moment_capacity h hi, List.nil_append, ht.scanned, Chart.handedOn,
    toList_cell_of_underway h hi ht.toUnderway]

/-- The next cell begins with the items handed on. -/
theorem handedOn_isPrefix_cell (h : ofProductions ps = .ok g) (hi : i < word.length) :
    (g.chart word).handedOn ps word i <+: ((g.chart word).cell (i + 1)).toList := by
  have hbegin := underway_reached h word (Nat.succ_le_succ (Nat.le_of_lt hi))
  rw [← pending_reached_succ h (Nat.le_of_lt hi)]
  exact queue_moment_isPrefix (k := 0) h hi hbegin

/-- If nothing is handed on, the next cell stays empty, and only then. -/
theorem cell_succ_eq_nil_iff (h : ofProductions ps = .ok g) (hi : i < word.length) :
    ((g.chart word).cell (i + 1)).toList = [] ↔ (g.chart word).handedOn ps word i = [] := by
  constructor
  · intro hnil
    have hfront := handedOn_isPrefix_cell h hi
    rwa [hnil, List.prefix_nil] at hfront
  · intro hnil
    have hbegin := underway_reached h word (Nat.succ_le_succ (Nat.le_of_lt hi))
    have hpend : (g.reached word (i + 1)).pending = [] := by
      rw [pending_reached_succ h (Nat.le_of_lt hi), hnil]
    have hmoment : (g.moment word (i + 1) (g.capacity (i + 1))) = g.reached word (i + 1) :=
      drain_of_pending_eq_nil hpend _
    rw [← hmoment] at hbegin
    exact toList_cell_of_underway h hi hbegin

end Grammar

/-! ## The other items -/

/-- Behind the front of a word an item is the advance of one that scans, or it has
just begun, or it has just passed a nonterminal. -/
theorem Entailed.exists_scans_or (h : Entailed ps start word (i + 1) x) :
    (∃ item, Entailed ps start word i item ∧ item.Scans ps word i ∧ item.advance = x) ∨
      x.dot = 0 ∧ x.origin = i + 1 ∨ x.PassedNonterminal ps := by
  generalize hj : i + 1 = j at h
  cases h with
  | seed => cases hj
  | predict => exact .inr (.inl ⟨rfl, rfl⟩)
  | complete _ _ hl _ ha =>
    obtain ⟨p, hp, hb⟩ := ha
    exact .inr (.inr ⟨p, _, _, hp, rfl, hb, hl.isLhs⟩)
  | scan hitem ha ht hterm =>
    obtain rfl := Nat.succ.inj hj
    exact .inl ⟨_, hitem, ⟨_, ha, ht, hterm⟩, rfl⟩

namespace Grammar

/-- A cell behind the front begins with what was handed on from the one before
it, as that one is when it is finished.  None of these items was in the cell
already when it was put there.  All others have just begun or have just passed a
nonterminal, and if nothing was handed on there are none. -/
theorem cell_succ_eq_handedOn_append (h : ofProductions ps = .ok g) (word : List Symbol) :
    ∀ i < word.length,
      (g.reached word (i + 1)).pending = (g.chart word).handedOn ps word i ∧
      (∃ others,
        ((g.chart word).cell (i + 1)).toList = (g.chart word).handedOn ps word i ++ others ∧
        ((g.chart word).handedOn ps word i ++ others).Nodup ∧
        ∀ x ∈ others, x.dot = 0 ∧ x.origin = i + 1 ∨ x.PassedNonterminal ps) ∧
      (∀ k item, ((g.chart word).cell i).toList[k]? = some item → item.Scans ps word i →
        (g.moment word i k).pending.head? = some item ∧
          ((g.moment word i k).chart.insert? (i + 1) item.advance).isSome) ∧
      (((g.chart word).cell (i + 1)).toList = [] ↔
        ∀ item ∈ (g.chart word).cell i, ¬ item.Scans ps word i) := by
  intro i hi
  obtain ⟨others, hcell⟩ := handedOn_isPrefix_cell h hi
  have hnodup := (underway_run h word).nodup (i + 1)
  rw [← chart, ← hcell] at hnodup
  refine ⟨pending_reached_succ h (Nat.le_of_lt hi), ⟨others, hcell.symm, hnodup, fun x hx => ?_⟩,
    fun k item hk _ => isSome_insert?_advance h hi hk, ?_⟩
  · have hmem : x ∈ (g.chart word).cell (i + 1) := by
      rw [Register.mem_iff, ← hcell]
      exact List.mem_append_right _ hx
    refine ((mem_cell_iff_entailed h).1 hmem).exists_scans_or.resolve_left ?_
    -- What scans is in the front part, and no item is in both.
    rintro ⟨item, hitem, hscan, hadv⟩
    have hfront : x ∈ (g.chart word).handedOn ps word i :=
      Chart.mem_handedOn.2 ⟨item, (mem_cell_iff_entailed h).2 hitem, hscan, hadv⟩
    exact (List.nodup_append.1 hnodup).2.2 x hfront x hx rfl
  · rw [cell_succ_eq_nil_iff h hi, Chart.handedOn_eq_nil_iff]

/-- `S -> A x`, a second time `S -> A x`, `A -> x A` and `A ->`. -/
def sameTwice : List Production :=
  [⟨"S", ["A", "x"]⟩, ⟨"S", ["A", "x"]⟩, ⟨"A", ["x", "A"]⟩, ⟨"A", []⟩]

/-- Three items are handed on, and of the two productions that are the same each
has its own.  In the next cell five more follow. -/
theorem cell_succ_eq_handedOn_append_sameTwice :
    ofProductions sameTwice = .ok (ofStart "S" sameTwice) ∧ 0 < ["x", "y"].length ∧
      ((ofStart "S" sameTwice).reached ["x", "y"] 1).pending =
        [⟨2, 1, 0⟩, ⟨0, 2, 0⟩, ⟨1, 2, 0⟩] ∧
      (∃ others, (((ofStart "S" sameTwice).chart ["x", "y"]).cell 1).toList =
        [⟨2, 1, 0⟩, ⟨0, 2, 0⟩, ⟨1, 2, 0⟩] ++ others ∧
        ∀ x ∈ others, x.dot = 0 ∧ x.origin = 1 ∨ x.PassedNonterminal sameTwice) ∧
      Item.Scans ⟨1, 1, 0⟩ sameTwice ["x", "y"] 0 ∧
      (((ofStart "S" sameTwice).moment ["x", "y"] 0 5).chart.insert? 1 ⟨1, 2, 0⟩).isSome ∧
      (((ofStart "S" sameTwice).chart ["x", "y"]).cell 2).toList = [] := by
  have hstructure :=
    @cell_succ_eq_handedOn_append sameTwice (ofStart "S" sameTwice) rfl ["x", "y"]
  obtain ⟨hpend, ⟨others, hcell, -, hothers⟩, hinsert, -⟩ := hstructure 0 (by decide)
  obtain ⟨-, -, -, hnil⟩ := hstructure 1 (by decide)
  have hhanded : ((ofStart "S" sameTwice).chart ["x", "y"]).handedOn sameTwice ["x", "y"] 0 =
      [⟨2, 1, 0⟩, ⟨0, 2, 0⟩, ⟨1, 2, 0⟩] := by decide +kernel
  have hscan : Item.Scans ⟨1, 1, 0⟩ sameTwice ["x", "y"] 0 := by decide +kernel
  rw [hhanded] at hpend hcell
  refine ⟨rfl, by decide, hpend, ⟨others, hcell, hothers⟩, hscan, ?_, hnil.2 ?_⟩
  · exact (hinsert 5 ⟨1, 1, 0⟩ (by decide +kernel) hscan).2
  · have hnone : ∀ item ∈ (((ofStart "S" sameTwice).chart ["x", "y"]).cell 1).toList,
        ¬ item.Scans sameTwice ["x", "y"] 1 := by decide +kernel
    exact hnone

end Grammar

end ContextFree
