import ContextFree.Proofs.Membership

/-!
# Nullable symbols

That a symbol is nullable is told in two places.  The null table has a flag for
it, found when the grammar was built.  And a chart has an item for it that is
finished where it began, if the symbol is tried at that position at all: an item
there awaits it, or it is the start symbol and the position is the first.

*The table.*  The flagged symbols are those that derive the empty word, and they
are the least family closed under the productions
(`Grammar.isNullable_least_closed`).  A yield of the empty word stands between
the two.

*From the chart to the table.*  What is finished where it began has matched
nothing, so its left-hand side yields the empty word (`Entailed.yields_nil`).

*From the table to the chart.*  A production that yields the empty word is begun
where its left-hand side is tried (`Entailed.fresh_of_tried`), and from there it
goes on to its end without a token.  It takes no look at how the parent went on:
that a nullable symbol is passed over at once loses no item.
-/

namespace ContextFree

open Grammar (ofProductions)

variable {ps : List Production} {start : Symbol} {word : List Symbol} {g : Grammar}
variable {b : Symbol} {i n : Nat}

/-! ## The table -/

theorem Vocabulary.nonterm?_of_mem {v : Vocabulary} (hb : b ∈ v.nonterminals) :
    v.nonterm? b = some (v.nonterm b) := by
  rw [nonterm?, Register.idxOf?, if_pos hb]
  rfl

theorem Vocabulary.nonterm?_of_not_mem {v : Vocabulary} (hb : b ∉ v.nonterminals) :
    v.nonterm? b = none := by
  rw [nonterm?, Register.idxOf?, if_neg hb]
  rfl

/-- The symbols that yield the empty word are nullable, whether the grammar
knows them or not. -/
theorem Grammar.isNullable_iff_yields (h : ofProductions ps = .ok g) :
    g.isNullable b = true ↔ Yields ps [b] [] := by
  by_cases hb : IsLhs ps b
  · rw [isNullable, Vocabulary.nonterm?_of_mem ((mem_nonterminals h).2 hb)]
    exact nullableAt_iff_yields h hb
  · rw [isNullable, Vocabulary.nonterm?_of_not_mem fun hm => hb ((mem_nonterminals h).1 hm)]
    constructor
    · intro hflag
      cases hflag
    · intro hy
      exact absurd hy.isLhs_of_nil hb

/-- A family of symbols that is closed under the productions read from right to
left: with all of a right-hand side it has the left-hand side. -/
def ClosedUnderProductions (ps : List Production) (family : Symbol → Prop) : Prop :=
  ∀ p ∈ ps, (∀ a ∈ p.rhs, family a) → family p.lhs

/-- What yields the empty word is in every closed family, symbol by symbol. -/
theorem Yields.mem_of_closed {family : Symbol → Prop} {s w : List Symbol} (hy : Yields ps s w)
    (hc : ClosedUnderProductions ps family) (hw : w = []) : ∀ a ∈ s, family a := by
  induction hy with
  | nil => intro a ha; cases ha
  | term => cases hw
  | @nonterm p s v w hp _ _ ihv ihw =>
    obtain ⟨hv, hw⟩ := List.append_eq_nil_iff.1 hw
    intro a ha
    cases ha with
    | head => exact hc p hp (ihv hv)
    | tail _ ha => exact ihw hw a ha

theorem Grammar.isNullable_iff_derives (h : ofProductions ps = .ok g) :
    g.isNullable b = true ↔ IsLhs ps b ∧ Derives ps [b] [] := by
  rw [isNullable_iff_yields h]
  constructor
  · intro hy
    exact ⟨hy.isLhs_of_nil, hy.derives⟩
  · rintro ⟨-, hd⟩
    exact .of_derives hd .nil

theorem Grammar.closedUnderProductions_isNullable (h : ofProductions ps = .ok g) :
    ClosedUnderProductions ps fun s => g.isNullable s = true := by
  intro p hp hall
  have hrhs : Yields ps p.rhs [] :=
    .nil_of_forall fun a ha => (isNullable_iff_yields h).1 (hall a ha)
  exact (isNullable_iff_yields h).2 (.nonterm hp hrhs .nil)

/-- Every list of at least one production makes a grammar, and its nullable
symbols are the left-hand sides that derive the empty word.  They are the least
family that is closed under the productions, in whatever order these stand. -/
theorem Grammar.isNullable_least_closed (p : Production) (ps : List Production) :
    ∃ g, ofProductions (p :: ps) = .ok g ∧
      (∀ s, g.isNullable s = true ↔ IsLhs (p :: ps) s ∧ Derives (p :: ps) [s] []) ∧
      ClosedUnderProductions (p :: ps) (fun s => g.isNullable s = true) ∧
      ∀ family, ClosedUnderProductions (p :: ps) family →
        ∀ s, g.isNullable s = true → family s := by
  refine ⟨ofStart p.lhs (p :: ps), rfl, fun s => isNullable_iff_derives rfl,
    closedUnderProductions_isNullable rfl, fun family hc s hs => ?_⟩
  have hy : Yields (p :: ps) [s] [] := (isNullable_iff_yields rfl).1 hs
  exact hy.mem_of_closed hc rfl s (List.mem_singleton_self s)

/-- `S -> x A A`, `A -> B`, `B -> A` and `B ->`.  The two nullable symbols lead
to each other. -/
def Grammar.nullableCycle : List Production :=
  [⟨"S", ["x", "A", "A"]⟩, ⟨"A", ["B"]⟩, ⟨"B", ["A"]⟩, ⟨"B", []⟩]

/-- Round the cycle the flags come from the empty production, and no family is
needed that holds the start symbol. -/
theorem Grammar.isNullable_least_closed_nullableCycle :
    (ofStart "S" nullableCycle).isNullable "A" = true ∧
      Derives nullableCycle ["A"] [] ∧ (ofStart "S" nullableCycle).isNullable "S" ≠ true := by
  obtain ⟨g, hg, hderives, hclosed, hleast⟩ := isNullable_least_closed ⟨"S", ["x", "A", "A"]⟩
    [⟨"A", ["B"]⟩, ⟨"B", ["A"]⟩, ⟨"B", []⟩]
  obtain rfl : ofStart "S" nullableCycle = g := Except.ok.inj hg
  have hB := hclosed ⟨"B", []⟩ (by simp) (fun a ha => (List.not_mem_nil ha).elim)
  have hA := hclosed ⟨"A", ["B"]⟩ (by simp) (fun a ha => List.mem_singleton.1 ha ▸ hB)
  have hfamily : ClosedUnderProductions nullableCycle fun s => s = "A" ∨ s = "B" := by
    simp [ClosedUnderProductions, nullableCycle]
  refine ⟨hA, ((hderives "A").1 hA).2, fun hS => ?_⟩
  cases hleast _ hfamily "S" hS with
  | inl h => exact absurd h (by decide)
  | inr h => exact absurd h (by decide)

/-! ## The chart -/

namespace Entailed

/-- The productions of a symbol are begun where the symbol is tried. -/
theorem fresh_of_tried
    (ht : (∃ item, Entailed ps start word i item ∧ item.Awaits ps b) ∨ i = 0 ∧ b = start)
    (hb : (Item.fresh n i).HasLhs ps b) : Entailed ps start word i (.fresh n i) := by
  rcases ht with ⟨item, hitem, ha⟩ | ⟨rfl, rfl⟩
  · exact hitem.predict ha hb
  · exact .seed hb

/-- A symbol that yields the empty word is finished where it is tried. -/
theorem exists_finished_of_yields_nil (hi : i ≤ word.length)
    (ht : (∃ item, Entailed ps start word i item ∧ item.Awaits ps b) ∨ i = 0 ∧ b = start)
    (hy : Yields ps [b] []) :
    ∃ item, Entailed ps start word i item ∧
      item.Finished ps ∧ item.HasLhs ps b ∧ item.origin = i := by
  obtain ⟨p, hp, rfl, hrhs⟩ := hy.exists_of_isLhs hy.isLhs_of_nil
  obtain ⟨m, hm⟩ := Item.exists_fresh_of hp i
  have hbegin : Entailed ps start word i (.fresh m i) := fresh_of_tried ht ⟨p, hm, rfl⟩
  have hend := hbegin.advanceBy_fresh hm (List.append_nil _).symm hrhs (drop_take_self i).symm
    (Nat.le_refl i) hi
  exact ⟨_, hend, ⟨p, hm, Nat.le_add_left ..⟩, ⟨p, hm, rfl⟩, rfl⟩

end Entailed

namespace Grammar

/-- Where a symbol is tried, it has an item that is finished where it began
exactly when it is nullable. -/
theorem exists_finished_iff_isNullable (h : ofProductions ps = .ok g)
    (ht : (∃ item ∈ (g.chart word).cell i, item.Awaits ps b) ∨ i = 0 ∧ b = g.start) :
    (∃ item ∈ (g.chart word).cell i, item.Finished ps ∧ item.HasLhs ps b ∧ item.origin = i) ↔
      g.isNullable b = true := by
  have htried : (∃ item, Entailed ps g.start word i item ∧ item.Awaits ps b) ∨
      i = 0 ∧ b = g.start := by
    refine ht.imp_left ?_
    rintro ⟨item, hm, ha⟩
    exact ⟨item, (mem_cell_iff_entailed h).1 hm, ha⟩
  rw [isNullable_iff_yields h]
  constructor
  · rintro ⟨item, hm, hf, hl, ho⟩
    exact ((mem_cell_iff_entailed h).1 hm).yields_nil hf hl ho
  · intro hy
    have hi : i ≤ word.length := by
      rcases htried with ⟨item, hitem, -⟩ | ⟨rfl, -⟩
      · exact hitem.le_length
      · exact Nat.zero_le _
    obtain ⟨item, hitem, hitem'⟩ := Entailed.exists_finished_of_yields_nil hi htried hy
    exact ⟨item, mem_cell_of_entailed h hitem, hitem'⟩

/-- The null table and the charts agree.  Wherever a symbol is tried, it has an
item that is finished where it began exactly when it is nullable, and so the
empty word is recognized exactly when the start symbol is. -/
theorem charts_agree_isNullable (h : ofProductions ps = .ok g) :
    (∀ word i b, (∃ item ∈ (g.chart word).cell i, item.Awaits ps b) ∨ i = 0 ∧ b = g.start →
      ((∃ item ∈ (g.chart word).cell i,
        item.Finished ps ∧ item.HasLhs ps b ∧ item.origin = i) ↔ g.isNullable b = true)) ∧
      g.recognizes [] = g.isNullable g.start := by
  refine ⟨fun word i b ht => exists_finished_iff_isNullable h ht, ?_⟩
  rw [Bool.eq_iff_iff, ← exists_finished_iff_isNullable h (.inr ⟨rfl, rfl⟩), recognizes_iff_mem h]
  constructor
  · rintro ⟨item, hm, ho, hf, hl⟩
    exact ⟨item, hm, hf, hl, ho⟩
  · rintro ⟨item, hm, hf, hl, ho⟩
    exact ⟨item, hm, ho, hf, hl⟩

/-- Behind the token both ends of the cycle are tried and finished, and the
start symbol is no part of it. -/
theorem charts_agree_isNullable_nullableCycle :
    ofProductions nullableCycle = .ok (ofStart "S" nullableCycle) ∧
      (ofStart "S" nullableCycle).isNullable "A" = true ∧
      (∃ item ∈ ((ofStart "S" nullableCycle).chart ["x"]).cell 1,
        item.Finished nullableCycle ∧ item.HasLhs nullableCycle "A" ∧ item.origin = 1) ∧
      (ofStart "S" nullableCycle).recognizes [] = false := by
  obtain ⟨hcells, hempty⟩ := @charts_agree_isNullable nullableCycle (ofStart "S" nullableCycle) rfl
  have hA : (ofStart "S" nullableCycle).isNullable "A" = true := by decide +kernel
  have hS : (ofStart "S" nullableCycle).isNullable "S" = false := by decide +kernel
  have htried : ⟨0, 1, 0⟩ ∈ ((ofStart "S" nullableCycle).chart ["x"]).cell 1 := by decide +kernel
  have hfinished := hcells ["x"] 1 "A" (.inl ⟨⟨0, 1, 0⟩, htried, ⟨_, rfl, rfl⟩⟩)
  exact ⟨rfl, hA, hfinished.2 hA, hempty.trans hS⟩

end Grammar

end ContextFree
