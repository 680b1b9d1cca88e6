import ContextFree.Proofs.Tables

/-!
# The null table is exact

The null table of a grammar flags the nonterminals that yield the empty word,
and no others (`Grammar.nullableAt_iff_yields`).

*No flag too many.*  What holds of the blank table and is kept by the
application of each rule holds of the saturated table
(`NullTable.saturate_induction`).  That every flag belongs to a symbol that
yields the empty word is such a property, although a pass reads flags that it
has just set.

*No flag too few.*  The last pass changed nothing, so no rule of it did, since
a flag once set stays set and there would be fewer unknown ones
(`NullTable.settle_eq_self`).  A table that no rule changes has the flag of
every symbol that yields the empty word, by induction on the yield.
-/

namespace ContextFree

namespace NullTable

variable {rules : List Rule} {t : NullTable} {r : Rule} {k : Nat}

/-! ## The saturated table -/

/-- What each rule keeps holds of the saturated table. -/
theorem saturate_induction {motive : NullTable → Prop} (init : motive t)
    (step : ∀ t, ∀ r ∈ rules, motive t → motive (t.settle r)) :
    motive (saturate rules t).table := by
  have hpass : ∀ (rs : List Rule) (t : NullTable), (∀ r ∈ rs, r ∈ rules) → motive t →
      motive (t.pass rs) := by
    intro rs
    induction rs with
    | nil => intro t _ ht; exact ht
    | cons r rs ih =>
      intro t hrs ht
      have hr : motive (t.settle r) := step t r (hrs r (List.mem_cons_self ..)) ht
      exact ih _ (fun q hq => hrs q (List.mem_cons_of_mem _ hq)) hr
  induction t using saturate.induct rules with
  | case1 t _ hfix =>
    rw [saturate, if_pos hfix]
    exact init
  | case2 t _ hfix ih =>
    rw [saturate, if_neg hfix]
    exact ih (hpass rules t (fun _ hr => hr) init)

/-- One more pass changes nothing. -/
theorem pass_saturate (rules : List Rule) (t : NullTable) :
    (saturate rules t).table.pass rules = (saturate rules t).table := by
  induction t using saturate.induct rules with
  | case1 t _ hfix =>
    rw [saturate, if_pos hfix]
    exact hfix
  | case2 t _ hfix ih =>
    rw [saturate, if_neg hfix]
    exact ih

/-- In a pass that changes nothing no rule changes anything. -/
theorem settle_eq_self (h : t.pass rules = t) (hr : r ∈ rules) : t.settle r = t := by
  induction rules with
  | nil => cases hr
  | cons q rules ih =>
    have hq : t.settle q = t := by
      -- If it did, an unknown flag would be lost for good.
      by_cases hq : t.settle q = t
      · exact hq
      · have hlt := unknown_settle_lt hq
        have hle := unknown_pass_le rules (t.settle q)
        have hall : (t.settle q).pass rules = t := h
        rw [hall] at hle
        omega
    cases hr with
    | head => exact hq
    | tail _ hr =>
      have hrest : t.pass rules = t := by
        have hall : (t.settle q).pass rules = t := h
        rwa [hq] at hall
      exact ih hrest hr

/-! ## The flags after one rule -/

/-- A flag that is set was set before, or the rule has set it. -/
theorem getD_settle (h : (t.settle r).getD k false = true) :
    t.getD k false = true ∨ k = r.lhs.index ∧ r.rhs.all t.vanishes = true := by
  rw [settle] at h
  split at h
  · rename_i hall
    by_cases hk : k = r.lhs.index
    · exact .inr ⟨hk, hall⟩
    · rw [Array.getD_eq_getD_getElem?, Array.getElem?_setIfInBounds_ne (Ne.symm hk),
        ← Array.getD_eq_getD_getElem?] at h
      exact .inl h
  · exact .inl h

/-- A rule that changes nothing has its flag set, if all of its right-hand side
vanishes. -/
theorem getD_of_settle_eq_self (h : t.settle r = t) (hall : r.rhs.all t.vanishes = true)
    (hlt : r.lhs.index < t.size) : t.getD r.lhs.index false = true := by
  rw [settle, if_pos hall] at h
  rw [← h, Array.getD_eq_getD_getElem?, Array.getElem?_setIfInBounds_self_of_lt hlt]
  rfl

theorem size_settle (t : NullTable) (r : Rule) : (t.settle r).size = t.size := by
  rw [settle]
  split
  · exact Array.size_setIfInBounds
  · rfl

theorem size_saturate (rules : List Rule) (t : NullTable) :
    (saturate rules t).table.size = t.size :=
  saturate_induction (motive := fun u => u.size = t.size) rfl
    fun u r _ hu => (size_settle u r).trans hu

end NullTable

namespace Grammar

variable {ps : List Production} {g : Grammar} {p : Production} {b : Symbol}

/-! ## The null table of a grammar -/

theorem nullable_eq (h : ofProductions ps = .ok g) :
    g.nullable = (NullTable.saturate (ps.map g.vocabulary.rule)
      (.blank g.vocabulary.nonterminals.size)).table := by
  obtain ⟨start, -, rfl⟩ := exists_eq_ofStart h
  rfl

/-- Every flag belongs to a symbol that yields the empty word. -/
def FlagsSound (ps : List Production) (v : Vocabulary) (t : NullTable) : Prop :=
  ∀ b, IsLhs ps b → t.getD (v.nonterm b).index false = true → Yields ps [b] []

/-- Where the flags are sound, a right-hand side that vanishes symbol by symbol
yields the empty word. -/
theorem FlagsSound.yields_nil (h : ofProductions ps = .ok g) {t : NullTable}
    (ht : FlagsSound ps g.vocabulary t)
    (hall : (g.vocabulary.rule p).rhs.all t.vanishes = true) : Yields ps p.rhs [] := by
  refine .nil_of_forall fun b hb => ?_
  have hvan := List.all_eq_true.1 hall _ (List.mem_map_of_mem hb)
  by_cases hlhs : IsLhs ps b
  · rw [ref_of_isLhs h hlhs] at hvan
    exact ht b hlhs hvan
  · rw [ref_of_not_isLhs h hlhs] at hvan
    cases hvan

theorem flagsSound_nullable (h : ofProductions ps = .ok g) :
    FlagsSound ps g.vocabulary g.nullable := by
  rw [nullable_eq h]
  refine NullTable.saturate_induction (motive := FlagsSound ps g.vocabulary) ?_ ?_
  · intro b _ hflag
    rw [NullTable.blank, Array.getD_eq_getD_getElem?, Array.getElem?_replicate] at hflag
    split at hflag <;> cases hflag
  · intro t r hr ht b hb hflag
    obtain ⟨p, hp, rfl⟩ := List.mem_map.1 hr
    rcases NullTable.getD_settle hflag with hold | ⟨hk, hall⟩
    · exact ht b hb hold
    · obtain rfl : b = p.lhs := (nonterm_inj h hb).1 (congrArg NontermId.mk hk)
      exact .nonterm hp (ht.yields_nil h hall) .nil

/-- Symbols that yield the empty word vanish in the null table. -/
theorem all_vanishes_of_yields (h : ofProductions ps = .ok g) {s w : List Symbol}
    (hy : Yields ps s w) (hw : w = []) :
    (s.map g.vocabulary.ref).all g.nullable.vanishes = true := by
  induction hy with
  | nil => rfl
  | term => cases hw
  | @nonterm p s v w hp _ _ ihv ihw =>
    obtain ⟨hv, hw⟩ := List.append_eq_nil_iff.1 hw
    have hlhs : IsLhs ps p.lhs := ⟨p, hp, rfl⟩
    have hfix : g.nullable.settle (g.vocabulary.rule p) = g.nullable := by
      rw [nullable_eq h]
      exact NullTable.settle_eq_self (NullTable.pass_saturate ..) (List.mem_map_of_mem hp)
    have hlt : (g.vocabulary.rule p).lhs.index < g.nullable.size := by
      rw [nullable_eq h, NullTable.size_saturate, NullTable.blank, Array.size_replicate]
      exact Register.idxOf_lt_size.2 ((mem_nonterminals h).2 hlhs)
    rw [List.map_cons, List.all_cons, ihw hw, Bool.and_true, ref_of_isLhs h hlhs]
    exact NullTable.getD_of_settle_eq_self hfix (ihv hv) hlt

theorem nullableAt_iff_yields (h : ofProductions ps = .ok g) (hb : IsLhs ps b) :
    g.nullableAt (g.vocabulary.nonterm b) = true ↔ Yields ps [b] [] := by
  refine ⟨fun hflag => flagsSound_nullable h b hb hflag, fun hy => ?_⟩
  have hall := all_vanishes_of_yields h hy rfl
  rw [List.map_singleton, ref_of_isLhs h hb, List.all_cons, List.all_nil, Bool.and_true] at hall
  exact hall

end Grammar

end ContextFree
