import ContextFree.Proofs.Membership

/-!
# Where items of the start symbol began

The verdict asks for an item of the start symbol that is finished at the end and
began at the front.  This says what it is for to ask where the item began
(`Grammar.origin_of_start_items`).

*What a later origin means.*  A finished item of the start symbol says of the
tokens from its origin to its position what an accepting item says of a whole
word.  So a run on these tokens alone accepts them, at whatever place they stand
(`Grammar.recognizes_of_completesStart`).

*When there is none.*  Only prediction begins items behind the front, and it
begins what is awaited.  If the start symbol stands on no right-hand side it is
never awaited (`Entailed.origin_eq_zero`), and then the verdict may as well go by
the name alone.
-/

namespace ContextFree

open Grammar (ofProductions)

variable {ps : List Production} {start : Symbol} {word : List Symbol} {g : Grammar}
variable {item : Item} {i : Nat}

/-- If the start symbol is never awaited, its items began at the front. -/
theorem Entailed.origin_eq_zero (hnever : ∀ p ∈ ps, start ∉ p.rhs)
    (h : Entailed ps start word i item) (hl : item.HasLhs ps start) : item.origin = 0 := by
  induction h with
  | seed => rfl
  | predict _ ha hb _ =>
    obtain rfl := hb.unique hl
    obtain ⟨p, hp, hawaited⟩ := ha
    exact absurd (List.mem_of_getElem? hawaited) (hnever p hp.mem)
  | complete _ _ _ _ _ _ ihp => exact ihp hl
  | scan _ _ _ _ ih => exact ih hl

namespace Grammar

/-- Whether an item is finished and of the start symbol, wherever it began. -/
def completesStart (g : Grammar) (item : Item) : Bool :=
  item.isDone g && item.lhs? g == some g.startId

/-- The verdict on a complete chart by names alone: whether any finished item of
the start symbol stands in the last cell. -/
def acceptsByName (g : Grammar) (c : Chart) : Bool := c.last.toList.any g.completesStart

theorem isAccepting_eq (g : Grammar) (item : Item) :
    g.isAccepting item = (item.origin == 0 && g.completesStart item) := by
  rw [isAccepting, completesStart, Bool.and_assoc]

theorem completesStart_iff (h : ofProductions ps = .ok g) :
    g.completesStart item = true ↔ item.Finished ps ∧ item.HasLhs ps g.start := by
  rw [completesStart, Bool.and_eq_true, beq_iff_eq, isDone_iff h, startId,
    lhs?_eq_some_iff h (isLhs_start h)]

/-- The tokens that a finished item of the start symbol covers are a word of the
language by themselves. -/
theorem recognizes_of_completesStart (h : ofProductions ps = .ok g)
    (hm : item ∈ (g.chart word).cell i) (hdone : g.completesStart item = true) :
    g.recognizes ((word.take i).drop item.origin) = true := by
  obtain ⟨hf, hl⟩ := (completesStart_iff h).1 hdone
  exact (recognizes_iff h).2 (((mem_cell_iff_entailed h).1 hm).inLanguage hf hl)

theorem origin_eq_zero_of_lhs? (h : ofProductions ps = .ok g)
    (hnever : ∀ p ∈ ps, g.start ∉ p.rhs) (hm : item ∈ (g.chart word).cell i)
    (hl : item.lhs? g = some g.startId) : item.origin = 0 :=
  ((mem_cell_iff_entailed h).1 hm).origin_eq_zero hnever
    ((lhs?_eq_some_iff h (isLhs_start h)).1 hl)

/-- The look at the origin finds nothing to refuse. -/
theorem recognizes_eq_acceptsByName (h : ofProductions ps = .ok g)
    (hnever : ∀ p ∈ ps, g.start ∉ p.rhs) (word : List Symbol) :
    g.recognizes word = g.acceptsByName (g.chart word) := by
  rw [recognizes, accepts, acceptsByName, Bool.eq_iff_iff, List.any_eq_true, List.any_eq_true]
  refine exists_congr fun item => and_congr_right fun hm => ?_
  rw [isAccepting_eq, Bool.and_eq_true, beq_iff_eq]
  refine ⟨And.right, fun hdone => ⟨?_, hdone⟩⟩
  have hl : item.lhs? g = some g.startId := by
    rw [completesStart, Bool.and_eq_true, beq_iff_eq] at hdone
    exact hdone.2
  exact origin_eq_zero_of_lhs? h hnever (Register.mem_iff.2 hm) hl

/-- Wherever an item of the start symbol is finished, the tokens from its origin
to its position are recognized in a run of their own.  If the start symbol stands
on no right-hand side, all of its items began at the front, and the verdict is
the one by names alone. -/
theorem origin_of_start_items (h : ofProductions ps = .ok g) :
    (∀ word i, ∀ item ∈ (g.chart word).cell i, g.completesStart item = true →
      item.origin ≤ i ∧ i ≤ word.length ∧
        g.recognizes ((word.take i).drop item.origin) = true) ∧
      ((∀ p ∈ ps, g.start ∉ p.rhs) → ∀ word,
        (∀ i, ∀ item ∈ (g.chart word).cell i, item.lhs? g = some g.startId → item.origin = 0) ∧
          g.recognizes word = g.acceptsByName (g.chart word)) := by
  refine ⟨fun word i item hm hdone => ⟨?_, ?_, ?_⟩, fun hnever word => ⟨fun i item hm hl => ?_, ?_⟩⟩
  · exact ((mem_cell_iff_entailed h).1 hm).valid.origin_le
  · exact ((mem_cell_iff_entailed h).1 hm).le_length
  · exact recognizes_of_completesStart h hm hdone
  · exact origin_eq_zero_of_lhs? h hnever hm hl
  · exact recognizes_eq_acceptsByName h hnever word

/-- `S -> ( S )` and `S -> x`. -/
def wrapped : List Production := [⟨"S", ["(", "S", ")"]⟩, ⟨"S", ["x"]⟩]

/-- An item of `wrapped` that began behind the front covers the second token of
`( x`, which is a word by itself.  In `twoNullables` no item of the start symbol
begins behind the front. -/
theorem origin_of_start_items_wrapped :
    ofProductions wrapped = .ok (ofStart "S" wrapped) ∧
      ⟨1, 1, 1⟩ ∈ ((ofStart "S" wrapped).chart ["(", "x"]).cell 2 ∧
      (ofStart "S" wrapped).completesStart ⟨1, 1, 1⟩ = true ∧
      (ofStart "S" wrapped).recognizes ["x"] = true ∧
      ofProductions twoNullables = .ok (ofStart "S" twoNullables) ∧
      (∀ p ∈ twoNullables, "S" ∉ p.rhs) ∧
      (ofStart "S" twoNullables).recognizes ["x"] =
        (ofStart "S" twoNullables).acceptsByName ((ofStart "S" twoNullables).chart ["x"]) := by
  have hm : ⟨1, 1, 1⟩ ∈ ((ofStart "S" wrapped).chart ["(", "x"]).cell 2 := by decide +kernel
  have hdone : (ofStart "S" wrapped).completesStart ⟨1, 1, 1⟩ = true := by decide +kernel
  have hnever : ∀ p ∈ twoNullables, "S" ∉ p.rhs := by decide
  obtain ⟨hcovered, -⟩ := @origin_of_start_items wrapped (ofStart "S" wrapped) rfl
  obtain ⟨-, hnames⟩ := @origin_of_start_items twoNullables (ofStart "S" twoNullables) rfl
  exact ⟨rfl, hm, hdone, (hcovered _ _ _ hm hdone).2.2, rfl, hnever, (hnames hnever ["x"]).2⟩

/-- Where the start symbol stands on a right-hand side, names alone accept too
much. -/
example : (ofStart "S" wrapped).acceptsByName ((ofStart "S" wrapped).chart ["(", "x"]) = true ∧
    (ofStart "S" wrapped).recognizes ["(", "x"] = false := by decide +kernel

end Grammar

end ContextFree
