import ContextFree.Proofs.Run

/-!
# What the chart of a word holds

The cells of a chart hold what follows by the rules, and nothing else
(`Grammar.mem_cell_iff_entailed`).  That they hold nothing else is part of the
invariant of a run.  That they hold all of it is shown by induction on the rules
(`Grammar.mem_cell_of_entailed`), as every item of a finished chart was used up.

The one rule for which this is not enough is completion by an item that began
where it ends.  It reads the cell of its own position, and a parent may have
come later.  But then the nonterminal of the finished item yields the empty
word (`Entailed.yields_nil`), so the parent was passed over it when it was taken.

Three descriptions of a chart follow: it is the least family closed under the
rules, it holds the items that are valid, and its last cell tells whether the
word is in the language.
-/

namespace ContextFree

/-- A family of items by positions that is closed under the three rules.
Completion reads the family itself, also at the position of the finished
item. -/
structure ClosedUnderRules (ps : List Production) (start : Symbol) (word : List Symbol)
    (family : Nat → Item → Prop) : Prop where
  /-- The productions of the start symbol begin at position `0`. -/
  seed : ∀ n, (Item.fresh n 0).HasLhs ps start → family 0 (.fresh n 0)
  /-- The productions of an awaited nonterminal begin. -/
  predict : ∀ i item b n, family i item → item.Awaits ps b → (Item.fresh n i).HasLhs ps b →
    family i (.fresh n i)
  /-- A finished item advances what awaits its left-hand side at its origin. -/
  complete : ∀ i item b parent, family i item → item.Finished ps → item.HasLhs ps b →
    family item.origin parent → parent.Awaits ps b → family i parent.advance
  /-- An awaited terminal that is the next token is passed over. -/
  scan : ∀ i item token, family i item → item.Awaits ps token → word[i]? = some token →
    ¬ IsLhs ps token → family (i + 1) item.advance

variable {ps : List Production} {start : Symbol} {word : List Symbol} {g : Grammar}
variable {item x : Item} {b : Symbol} {i : Nat}

namespace Entailed

theorem le_length (h : Entailed ps start word i item) : i ≤ word.length := by
  induction h with
  | seed => exact Nat.zero_le _
  | predict _ _ _ ih => exact ih
  | complete _ _ _ _ _ ih _ => exact ih
  | scan _ _ ht _ _ => exact (List.getElem?_eq_some_iff.1 ht).1

/-- What follows by the rules is in every family closed under them. -/
theorem mem_of_closed {family : Nat → Item → Prop} (h : Entailed ps start word i item)
    (hc : ClosedUnderRules ps start word family) : family i item := by
  induction h with
  | seed hs => exact hc.seed _ hs
  | predict _ ha hb ih => exact hc.predict _ _ _ _ ih ha hb
  | complete _ hf hl _ ha ih ihp => exact hc.complete _ _ _ _ ih hf hl ihp ha
  | scan _ ha ht hterm ih => exact hc.scan _ _ _ ih ha ht hterm

theorem closedUnderRules (ps : List Production) (start : Symbol) (word : List Symbol) :
    ClosedUnderRules ps start word (Entailed ps start word) :=
  ⟨fun _ hs => .seed hs, fun _ _ _ _ h ha hb => h.predict ha hb,
    fun _ _ _ _ h hf hl hp ha => .complete h hf hl hp ha,
    fun _ _ _ h ha ht hterm => h.scan ha ht hterm⟩

/-- The nonterminal of an item that is finished where it began yields the empty
word. -/
theorem yields_nil (h : Entailed ps start word i item) (hf : item.Finished ps)
    (hl : item.HasLhs ps b) (hi : item.origin = i) : Yields ps [b] [] := by
  obtain ⟨p, hp, -, hm, -⟩ := h.valid.fits
  obtain ⟨q, hq, hle⟩ := hf
  obtain rfl := hp.unique hq
  obtain rfl := hl.unique ⟨p, hp, rfl⟩
  rw [List.take_of_length_le hle, hi, drop_take_self] at hm
  exact .nonterm hp.mem (.of_derives hm .nil) .nil

/-- The tokens that a finished item for the start symbol covers are a word of the
language. -/
theorem inLanguage (h : Entailed ps start word i item) (hf : item.Finished ps)
    (hl : item.HasLhs ps start) : InLanguage ps start ((word.take i).drop item.origin) := by
  obtain ⟨p, hp, -, hm, -⟩ := h.valid.fits
  obtain ⟨q, hq, hle⟩ := hf
  obtain rfl := hp.unique hq
  obtain rfl := hl.unique ⟨p, hp, rfl⟩
  rw [List.take_of_length_le hle] at hm
  refine ⟨fun token ht => ?_, (Derives.of_mem hp.mem).trans hm⟩
  exact h.valid.terminals token (List.mem_of_mem_drop ht)

/-- A word of the language has a finished item for the start symbol at its end
that began at the front. -/
theorem exists_of_inLanguage (hs : IsLhs ps start) (h : InLanguage ps start word) :
    ∃ item, Entailed ps start word word.length item ∧
      item.origin = 0 ∧ item.Finished ps ∧ item.HasLhs ps start := by
  obtain ⟨p, hp, rfl, hy⟩ := (inLanguage_iff_yields.1 h).exists_of_isLhs hs
  obtain ⟨n, hn⟩ := Item.exists_fresh_of hp 0
  have hbegin : Entailed ps p.lhs word 0 (.fresh n 0) := .seed ⟨p, hn, rfl⟩
  have htokens : word = (word.take word.length).drop 0 := by rw [List.take_length, List.drop_zero]
  have hend := hbegin.advanceBy_fresh hn (List.append_nil _).symm hy htokens (Nat.zero_le _)
    (Nat.le_refl _)
  exact ⟨_, hend, rfl, ⟨p, hn, Nat.le_add_left ..⟩, p, hn, rfl⟩

end Entailed

namespace Grammar

/-! ## Cells -/

theorem size_cells_chart (h : ofProductions ps = .ok g) (word : List Symbol) :
    (g.chart word).cells.size = word.length + 1 :=
  (underway_run h word).size

theorem mem_cell_of_entailed (h : ofProductions ps = .ok g)
    (hx : Entailed ps g.start word i item) : item ∈ (g.chart word).cell i := by
  have hrun := underway_run h word
  induction hx with
  | seed hs => exact hrun.seeded _ hs
  | @predict i n item b hx ha hb ih =>
    have hused := hrun.closed i (Nat.lt_succ_of_le hx.le_length) item ih
    exact hused i _ (.predict ha hb)
  | @complete i item parent b hx hf hl hp ha ih ihp =>
    have hi : i < word.length + 1 := Nat.lt_succ_of_le hx.le_length
    rcases Nat.lt_or_eq_of_le hx.valid.origin_le with hlt | heq
    · exact hrun.closed i hi item ih i _ (.complete hf hl ⟨hlt, ihp⟩ ha)
    · -- The parent is in the cell of the position itself.
      have hnil := hx.yields_nil hf hl heq
      rw [heq] at ihp
      exact hrun.closed i hi parent ihp i _ (.skip ha hnil)
  | @scan i item token hx ha ht hterm ih =>
    have hused := hrun.closed i (Nat.lt_succ_of_le hx.le_length) item ih
    exact hused (i + 1) _ (.scan ha ht hterm)

theorem mem_cell_iff_entailed (h : ofProductions ps = .ok g) :
    item ∈ (g.chart word).cell i ↔ Entailed ps g.start word i item :=
  ⟨(underway_run h word).sound i item, mem_cell_of_entailed h⟩

theorem exists_of_mem_cell (h : ofProductions ps = .ok g)
    (hm : item ∈ ((g.chart word).cell i).toList) : ∃ p, item.Of ps p :=
  ((mem_cell_iff_entailed h).1 (Register.mem_iff.2 hm)).exists_of

/-- The cells of a chart are the least family closed under the three rules.
There is one for each position of the word. -/
theorem cells_least_closed (h : ofProductions ps = .ok g) (word : List Symbol) :
    (g.chart word).cells.size = word.length + 1 ∧
      ClosedUnderRules ps g.start word (fun i x => x ∈ (g.chart word).cell i) ∧
      ∀ family, ClosedUnderRules ps g.start word family →
        ∀ i, ∀ x ∈ (g.chart word).cell i, family i x := by
  have hcells : (fun i x => x ∈ (g.chart word).cell i) = Entailed ps g.start word := by
    funext i x
    exact propext (mem_cell_iff_entailed h)
  refine ⟨size_cells_chart h word, ?_, fun family hc i x hx => ?_⟩
  · rw [hcells]
    exact Entailed.closedUnderRules ps g.start word
  · exact ((mem_cell_iff_entailed h).1 hx).mem_of_closed hc

/-- `S -> A A x` and `A ->`.  The second `A` is finished while the cell in which
it began still grows. -/
def twoNullables : List Production := [⟨"S", ["A", "A", "x"]⟩, ⟨"A", []⟩]

/-- Both ways to use the least family: the three rules put an item in, and a
family closed under them bounds what is there. -/
theorem cells_least_closed_twoNullables :
    ofProductions twoNullables = .ok (ofStart "S" twoNullables) ∧
      ⟨0, 3, 0⟩ ∈ ((ofStart "S" twoNullables).chart ["x"]).cell 1 ∧
      ∀ i, ∀ x ∈ ((ofStart "S" twoNullables).chart ["x"]).cell i, x.origin ≤ i := by
  obtain ⟨-, hclosed, hleast⟩ :=
    @cells_least_closed twoNullables (ofStart "S" twoNullables) rfl ["x"]
  refine ⟨rfl, ?_, hleast (fun i x => x.origin ≤ i) ?_⟩
  · have hx : ¬ IsLhs twoNullables "x" := by simp [IsLhs, twoNullables]
    have hS := hclosed.seed 0 ⟨_, rfl, rfl⟩
    have hA := hclosed.predict 0 _ "A" 1 hS ⟨_, rfl, rfl⟩ ⟨_, rfl, rfl⟩
    have hdone : (Item.fresh 1 0).Finished twoNullables := ⟨_, rfl, Nat.le_refl 0⟩
    have hone := hclosed.complete 0 _ "A" _ hA hdone ⟨_, rfl, rfl⟩ hS ⟨_, rfl, rfl⟩
    have htwo := hclosed.complete 0 _ "A" _ hA hdone ⟨_, rfl, rfl⟩ hone ⟨_, rfl, rfl⟩
    exact hclosed.scan 0 _ "x" htwo ⟨_, rfl, rfl⟩ rfl hx
  · exact ⟨fun _ _ => Nat.le_refl _, fun _ _ _ _ _ _ _ => Nat.le_refl _,
      fun _ _ _ _ hi _ _ hp _ => Nat.le_trans hp hi, fun _ _ _ hi _ _ _ => Nat.le_succ_of_le hi⟩

/-- A chart holds each valid item once, and no other. -/
theorem cells_hold_valid (h : ofProductions ps = .ok g) (word : List Symbol) :
    (g.chart word).cells.size = word.length + 1 ∧
      ∀ i ≤ word.length, ((g.chart word).cell i).toList.Nodup ∧
        ∀ item, item ∈ (g.chart word).cell i ↔ Valid ps g.start word i item := by
  refine ⟨size_cells_chart h word, fun i hi => ⟨?_, fun item => ?_⟩⟩
  · exact (underway_run h word).nodup i
  · rw [mem_cell_iff_entailed h, entailed_iff_valid hi]

theorem cells_hold_valid_twoNullables :
    ofProductions twoNullables = .ok (ofStart "S" twoNullables) ∧
      Valid twoNullables "S" ["x"] 0 ⟨0, 2, 0⟩ ∧
      ⟨0, 2, 0⟩ ∈ ((ofStart "S" twoNullables).chart ["x"]).cell 0 := by
  have hA : Derives twoNullables ["A"] [] := .of_mem (p := ⟨"A", []⟩) (by simp [twoNullables])
  have hvalid : Valid twoNullables "S" ["x"] 0 ⟨0, 2, 0⟩ :=
    ⟨fun _ h => (List.not_mem_nil h).elim, Nat.le_refl 0, _, rfl, by decide, hA.append hA,
      [], .refl _⟩
  have hcells := @cells_hold_valid twoNullables (ofStart "S" twoNullables) rfl ["x"]
  exact ⟨rfl, hvalid, ((hcells.2 0 (by decide)).2 _).2 hvalid⟩

/-! ## The verdict -/

theorem isAccepting_iff (h : ofProductions ps = .ok g) :
    g.isAccepting item = true ↔
      item.origin = 0 ∧ item.Finished ps ∧ item.HasLhs ps g.start := by
  rw [isAccepting, Bool.and_eq_true, Bool.and_eq_true, beq_iff_eq, beq_iff_eq, isDone_iff h,
    startId, lhs?_eq_some_iff h (isLhs_start h), and_assoc]

/-- A word is accepted when its last cell has a finished item for the start
symbol that began at the front. -/
theorem recognizes_iff_mem (h : ofProductions ps = .ok g) :
    g.recognizes word = true ↔ ∃ item ∈ (g.chart word).cell word.length,
      item.origin = 0 ∧ item.Finished ps ∧ item.HasLhs ps g.start := by
  rw [recognizes, accepts, List.any_eq_true, Chart.last, size_cells_chart h,
    Nat.add_sub_cancel]
  simp only [isAccepting_iff h, Register.mem_iff]

/-- The words recognized are those of the language. -/
theorem recognizes_iff (h : ofProductions ps = .ok g) :
    g.recognizes word = true ↔ InLanguage ps g.start word := by
  rw [recognizes_iff_mem h]
  constructor
  · rintro ⟨item, hm, horigin, hf, hl⟩
    have hlang := ((mem_cell_iff_entailed h).1 hm).inLanguage hf hl
    rwa [horigin, List.drop_zero, List.take_length] at hlang
  · intro hlang
    obtain ⟨item, hent, haccept⟩ := Entailed.exists_of_inLanguage (isLhs_start h) hlang
    exact ⟨item, mem_cell_of_entailed h hent, haccept⟩

/-- Every list of at least one production makes a grammar, and it recognizes
the words of terminals that the left-hand side of the first production
derives. -/
theorem recognizes_iff_inLanguage (p : Production) (ps : List Production) :
    ∃ g, ofProductions (p :: ps) = .ok g ∧
      ∀ word, g.recognizes word = true ↔ InLanguage (p :: ps) p.lhs word :=
  ⟨ofStart p.lhs (p :: ps), rfl, fun _ => recognizes_iff rfl⟩

end Grammar

end ContextFree
