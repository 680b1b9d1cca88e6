import ContextFree.Proofs.Membership

/-!
# Where a word goes wrong

A cell is empty exactly when the tokens before it begin nothing that the start
symbol derives (`Grammar.cell_ne_empty_iff`).  So the first empty cell of a word
stands right behind the first token that cannot follow those before it, and all
cells after it are empty too.

*From an item to a derivation.*  What an item of the cell has matched is part of
something that the start symbol derives (`Valid.derives`).

*From a derivation to an item.*  The symbols that yield the tokens end somewhere
in what the start symbol derives, and the derivation is undone step by step
(`Entailed.exists_of_derives`).  A step that took place behind that end, or
before it, leaves the claim as it was.  A step across it put in a production
that is begun where the tokens before it end, and the production goes on from
there to the end.  What stands behind is never looked at, so it may hold
nonterminals that derive no word at all.
-/

namespace ContextFree

open Grammar (ofProductions)

variable {ps : List Production} {start : Symbol} {word : List Symbol} {g : Grammar}
variable {b token : Symbol} {i j k : Nat}

/-! ## Beginnings of what is derived -/

/-- A derivation brings in symbols of right-hand sides only. -/
theorem Derives.mem_or_mem_rhs {s t : List Symbol} (h : Derives ps s t) (hb : b ∈ t) :
    b ∈ s ∨ ∃ p ∈ ps, b ∈ p.rhs := by
  induction h with
  | refl => exact .inl hb
  | @step p u v _ hp ih =>
    rw [List.append_assoc, List.mem_append, List.mem_append] at hb
    rcases hb with hu | hr | hv
    · exact ih (List.mem_append_left _ hu)
    · exact .inr ⟨p, hp, hr⟩
    · exact ih (List.mem_append_right _ (List.mem_cons_of_mem _ hv))

namespace Entailed

/-- A left-hand side that is the start symbol is begun at the front, and goes on
over tokens that one of its right-hand sides yields. -/
theorem exists_of_start (hs : IsLhs ps start) (hk : k ≤ word.length)
    (h : k = 0 ∨ Yields ps [start] (word.take k)) : ∃ item, Entailed ps start word k item := by
  rcases h with rfl | hy
  · obtain ⟨p, hp, rfl⟩ := hs
    obtain ⟨n, hn⟩ := Item.exists_fresh_of hp 0
    exact ⟨_, .seed ⟨p, hn, rfl⟩⟩
  · obtain ⟨p, hp, rfl, hrhs⟩ := hy.exists_of_isLhs hs
    obtain ⟨n, hn⟩ := Item.exists_fresh_of hp 0
    have hbegin : Entailed ps p.lhs word 0 (.fresh n 0) := .seed ⟨p, hn, rfl⟩
    have hend := hbegin.advanceBy_fresh hn (List.append_nil _).symm hrhs (List.drop_zero ..).symm
      (Nat.zero_le k) hk
    exact ⟨_, hend⟩

/-- Where the symbols in front yield the tokens read, there is an item. -/
theorem exists_of_derives (hs : IsLhs ps start) {t : List Symbol} (hd : Derives ps [start] t) :
    ∀ {y rest : List Symbol} {k : Nat}, t = y ++ rest → Yields ps y (word.take k) →
      k ≤ word.length → ∃ item, Entailed ps start word k item := by
  induction hd with
  | refl =>
    intro y rest k ht hy hk
    refine exists_of_start hs hk ?_
    cases y with
    | nil => exact .inl (hy.eq_zero_of_take hk)
    | cons a y =>
      obtain ⟨rfl, hnil⟩ := List.cons.inj ht
      obtain ⟨rfl, -⟩ := List.append_eq_nil_iff.1 hnil.symm
      exact .inr hy
  | @step p u v hd hp ih =>
    intro y rest k ht hy hk
    rcases List.append_eq_append_iff.1 ht with ⟨x, rfl, rfl⟩ | ⟨x, hux, rfl⟩
    · -- All of the right-hand side is among the symbols that yield the tokens.
      exact ih (by rw [List.append_assoc, List.cons_append]) (hy.of_replaced hp) hk
    · rcases List.append_eq_append_iff.1 hux with ⟨z, rfl, hrhs⟩ | ⟨z, rfl, rfl⟩
      · -- The first part of it is, and the production was begun before it.
        obtain ⟨w₁, w₂, hw, hu, hz⟩ := hy.of_append
        obtain ⟨hle, hw₁, hw₂⟩ := take_eq_append hw hk
        obtain ⟨n, hn⟩ := Item.exists_fresh_of hp w₁.length
        have hbegin : Entailed ps start word w₁.length (.fresh n w₁.length) :=
          .fresh_of_derives hd rfl (hw₁.symm ▸ hu) (Nat.le_trans hle hk) ⟨p, hn, rfl⟩
        exact ⟨_, hbegin.advanceBy_fresh hn hrhs hz hw₂ hle hk⟩
      · -- None of it is.
        exact ih (by rw [List.append_assoc]) hy hk

end Entailed

/-! ## Empty cells -/

theorem Register.ne_empty_iff {α : Type} {r : Register α} : r ≠ ∅ ↔ ∃ x, x ∈ r := by
  constructor
  · intro hne
    obtain ⟨l⟩ := r
    cases l with
    | nil => exact absurd rfl hne
    | cons x l => exact ⟨x, List.mem_cons_self ..⟩
  · rintro ⟨x, hx⟩ rfl
    exact List.not_mem_nil hx

namespace Grammar

/-- A cell holds an item exactly when the tokens before it begin something that
the start symbol derives. -/
theorem cell_ne_empty_iff (h : ofProductions ps = .ok g) (hi : i ≤ word.length) :
    (g.chart word).cell i ≠ ∅ ↔
      (∀ token ∈ word.take i, ¬ IsLhs ps token) ∧
        ∃ rest, Derives ps [g.start] (word.take i ++ rest) := by
  rw [Register.ne_empty_iff]
  constructor
  · rintro ⟨item, hm⟩
    have hvalid := ((mem_cell_iff_entailed h).1 hm).valid
    obtain ⟨p, hp, -⟩ := hvalid.fits
    obtain ⟨rest, hd⟩ := hvalid.derives hp
    rw [List.append_assoc] at hd
    exact ⟨hvalid.terminals, _, hd⟩
  · rintro ⟨hterm, rest, hd⟩
    obtain ⟨item, hitem⟩ :=
      Entailed.exists_of_derives (isLhs_start h) hd rfl (.of_not_isLhs hterm) hi
    exact ⟨item, mem_cell_of_entailed h hitem⟩

/-- What begins with more tokens begins with fewer. -/
theorem cell_ne_empty_of_le (h : ofProductions ps = .ok g) (hij : i ≤ j) (hj : j ≤ word.length)
    (hne : (g.chart word).cell j ≠ ∅) : (g.chart word).cell i ≠ ∅ := by
  obtain ⟨hterm, rest, hd⟩ := (cell_ne_empty_iff h hj).1 hne
  rw [← take_append_drop_take hij] at hterm hd
  rw [List.append_assoc] at hd
  have hterm' : ∀ token ∈ word.take i, ¬ IsLhs ps token :=
    fun token ht => hterm token (List.mem_append_left _ ht)
  exact (cell_ne_empty_iff h (Nat.le_trans hij hj)).2 ⟨hterm', _, hd⟩

theorem cell_ne_empty_of_recognizes (h : ofProductions ps = .ok g) (hi : i ≤ word.length)
    (haccept : g.recognizes word = true) : (g.chart word).cell i ≠ ∅ := by
  obtain ⟨item, hm, -⟩ := (recognizes_iff_mem h).1 haccept
  exact cell_ne_empty_of_le h hi (Nat.le_refl _) (Register.ne_empty_iff.2 ⟨item, hm⟩)

/-- In front of a cell that holds an item all tokens are terminals of the
grammar. -/
theorem isTerminal_of_cell_ne_empty (h : ofProductions ps = .ok g) (hkj : k < j)
    (hj : j ≤ word.length) (htoken : word[k]? = some token) (hne : (g.chart word).cell j ≠ ∅) :
    g.isTerminal token = true := by
  obtain ⟨hterm, rest, hd⟩ := (cell_ne_empty_iff h hj).1 hne
  have hmem : token ∈ word.take j := by
    refine List.mem_of_getElem? (i := k) ?_
    rwa [List.getElem?_take_of_lt hkj]
  have hlhs : ¬ IsLhs ps token := hterm token hmem
  have hrhs : ∃ p ∈ ps, token ∈ p.rhs := by
    refine (hd.mem_or_mem_rhs (List.mem_append_left _ hmem)).resolve_left fun hstart => ?_
    exact hlhs (List.mem_singleton.1 hstart ▸ isLhs_start h)
  exact decide_eq_true ((mem_terminals h).2 ⟨hrhs, hlhs⟩)

/-- There is a cell for each position of a word, and one of them holds an item
exactly when the tokens before it are terminals and begin something that the
start symbol derives.  Behind an empty cell all cells are empty, and the word is
not recognized.  So they are behind a token that is no terminal of the
grammar. -/
theorem cells_viable (h : ofProductions ps = .ok g) (word : List Symbol) :
    (g.chart word).cells.size = word.length + 1 ∧
      (∀ i ≤ word.length, (g.chart word).cell i ≠ ∅ ↔
        (∀ token ∈ word.take i, ¬ IsLhs ps token) ∧
          ∃ rest, Derives ps [g.start] (word.take i ++ rest)) ∧
      (∀ i ≤ word.length, (g.chart word).cell i = ∅ →
        (∀ j, i ≤ j → j ≤ word.length → (g.chart word).cell j = ∅) ∧
          g.recognizes word = false) ∧
      ∀ k token, word[k]? = some token → g.isTerminal token = false →
        ∀ j, k < j → j ≤ word.length → (g.chart word).cell j = ∅ := by
  refine ⟨size_cells_chart h word, fun i hi => ?_, fun i hi hempty => ⟨fun j hij hj => ?_, ?_⟩,
    fun k token htoken hunknown j hkj hj => ?_⟩
  · exact cell_ne_empty_iff h hi
  · exact Decidable.byContradiction fun hne => cell_ne_empty_of_le h hij hj hne hempty
  · exact Bool.eq_false_iff.2 fun haccept => cell_ne_empty_of_recognizes h hi haccept hempty
  · refine Decidable.byContradiction fun hne => ?_
    have hknown := isTerminal_of_cell_ne_empty h hkj hj htoken hne
    rw [hunknown] at hknown
    cases hknown

/-- `S -> a B` and `B -> B b`.  No word is derived. -/
def endless : List Production := [⟨"S", ["a", "B"]⟩, ⟨"B", ["B", "b"]⟩]

/-- The token `a` begins what the start symbol derives, although no word does.
Then `B` is no token that can be read, although it comes next there. -/
theorem cells_viable_endless :
    ofProductions endless = .ok (ofStart "S" endless) ∧
      (∃ rest, Derives endless ["S"] (["a", "B"].take 1 ++ rest)) ∧
      ((ofStart "S" endless).chart ["a", "B"]).cell 1 ≠ ∅ ∧
      (ofStart "S" endless).isTerminal "B" = false ∧
      ((ofStart "S" endless).chart ["a", "B"]).cell 2 = ∅ ∧
      (ofStart "S" endless).recognizes ["a", "B"] = false := by
  obtain ⟨-, hviable, hbehind, hunknown⟩ :=
    @cells_viable endless (ofStart "S" endless) rfl ["a", "B"]
  have hd : ∃ rest, Derives endless ["S"] (["a", "B"].take 1 ++ rest) :=
    ⟨["B"], .of_mem (p := ⟨"S", ["a", "B"]⟩) (by simp [endless])⟩
  have hterm : ∀ token ∈ ["a", "B"].take 1, ¬ IsLhs endless token := by simp [IsLhs, endless]
  have hB : (ofStart "S" endless).isTerminal "B" = false := by decide +kernel
  have hempty := hunknown 1 "B" rfl hB 2 (by decide) (by decide)
  exact ⟨rfl, hd, (hviable 1 (by decide)).2 ⟨hterm, hd⟩, hB, hempty,
    (hbehind 2 (by decide) hempty).2⟩

end Grammar

end ContextFree
