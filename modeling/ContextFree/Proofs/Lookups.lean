import ContextFree.Proofs.Bounds
import ContextFree.Recognition.Checked

/-!
# Every look-up is in range

The computations with checked look-ups give what those without give, so no
index is ever out of range: not when a grammar is built
(`Grammar.checkedOfProductions_eq`), not in the recognition of a word
(`Grammar.checkedRun_eq`) and not in its verdict (`Grammar.checkedAccepts_eq`).

A loop with checks goes through where each of its turns does, as long as what
makes it do so is kept (`foldlM_eq_some`).  For the tables that is their size.
For a recognition it is the invariant of the run: the items at a position are of
productions of the grammar, and the cells at which they began exist.
-/

namespace ContextFree

open Grammar (ofProductions)

/-! ## Loops -/

/-- A loop whose turns go through goes through, and leads where the loop without
checks leads. -/
theorem foldlM_eq_some {σ α : Type} {f : σ → α → Option σ} {f' : σ → α → σ} (kept : σ → Prop)
    (l : List α) (step : ∀ s, ∀ a ∈ l, kept s → f s a = some (f' s a) ∧ kept (f' s a)) {s : σ}
    (hs : kept s) : l.foldlM f s = some (l.foldl f' s) ∧ kept (l.foldl f' s) := by
  induction l generalizing s with
  | nil => exact ⟨rfl, hs⟩
  | cons a l ih =>
    obtain ⟨hturn, hnext⟩ := step s a (List.mem_cons_self ..) hs
    rw [List.foldlM_cons, hturn, List.foldl_cons]
    exact ih (fun t b hb => step t b (List.mem_cons_of_mem _ hb)) hnext

theorem anyM_eq_some {α : Type} {f : α → Option Bool} {f' : α → Bool} (l : List α)
    (h : ∀ a ∈ l, f a = some (f' a)) : l.anyM f = some (l.any f') := by
  induction l with
  | nil => rfl
  | cons a l ih =>
    have hrest := ih fun b hb => h b (List.mem_cons_of_mem _ hb)
    rw [List.anyM, h a (List.mem_cons_self ..), List.any_cons]
    cases f' a with
    | true => rfl
    | false => exact hrest

theorem allM_eq_some {α : Type} {f : α → Option Bool} {f' : α → Bool} (l : List α)
    (h : ∀ a ∈ l, f a = some (f' a)) : l.allM f = some (l.all f') := by
  induction l with
  | nil => rfl
  | cons a l ih =>
    have hrest := ih fun b hb => h b (List.mem_cons_of_mem _ hb)
    rw [List.allM, h a (List.mem_cons_self ..), List.all_cons]
    cases f' a with
    | true => exact hrest
    | false => rfl

/-- What is read with a check is what is read without, if it is there. -/
theorem getElem?_eq_getD {α : Type} {t : Array α} {k : Nat} (default : α) (h : k < t.size) :
    t[k]? = some (t.getD k default) := by
  rw [Array.getD_eq_getD_getElem?, Array.getElem?_eq_getElem h, Option.getD_some]

theorem ifWithin_of_lt {α : Type} {i size : Nat} (x : α) (h : i < size) :
    ifWithin i size x = some x := if_pos h

/-! ## The null table -/

namespace NullTable

variable {rules : List Rule} {t : NullTable} {r : Rule} {n : Nat}

/-- The numbers in a rule are below `n`, as far as they are those of
nonterminals. -/
def Numbers (n : Nat) (r : Rule) : Prop :=
  r.lhs.index < n ∧ ∀ a, .nonterm a ∈ r.rhs → a.index < n

theorem checkedVanishes_eq {a : SymbolRef} (h : ∀ b, a = .nonterm b → b.index < t.size) :
    t.checkedVanishes a = some (t.vanishes a) := by
  cases a with
  | nonterm a => exact getElem?_eq_getD false (h a rfl)
  | term a => rfl

theorem checkedSettle_eq (hr : Numbers t.size r) : t.checkedSettle r = some (t.settle r) := by
  obtain ⟨hlhs, hrhs⟩ := hr
  have hall : r.rhs.allM t.checkedVanishes = some (r.rhs.all t.vanishes) := by
    refine allM_eq_some r.rhs fun a ha => checkedVanishes_eq fun b hb => ?_
    exact hrhs b (hb ▸ ha)
  have hex : ∃ u, t.checkedSettle r = some u := by
    rw [checkedSettle, Array.getElem?_eq_getElem hlhs, hall, ifWithin_of_lt _ hlhs]
    cases t[r.lhs.index] with
    | true => exact ⟨_, rfl⟩
    | false =>
      cases r.rhs.all t.vanishes with
      | true => exact ⟨_, rfl⟩
      | false => exact ⟨_, rfl⟩
  obtain ⟨u, hu⟩ := hex
  rw [hu, settle_of_checked hu]

theorem checkedPass_eq (hrules : ∀ r ∈ rules, Numbers n r) (ht : t.size = n) :
    t.checkedPass rules = some (t.pass rules) ∧ (t.pass rules).size = n := by
  refine foldlM_eq_some (fun u : NullTable => u.size = n) rules (fun u r hr hu => ?_) ht
  exact ⟨checkedSettle_eq (hu ▸ hrules r hr), (size_settle u r).trans hu⟩

theorem checkedSaturate_eq (hrules : ∀ r ∈ rules, Numbers n r) (ht : t.size = n) :
    checkedSaturate rules t = some (saturate rules t).table := by
  induction t using saturate.induct rules with
  | case1 t next hfix =>
    obtain ⟨hpass, -⟩ := checkedPass_eq hrules ht
    rw [checkedSaturate_of_pass hpass, saturate, if_pos hfix, if_pos hfix]
  | case2 t next hfix ih =>
    obtain ⟨hpass, hsize⟩ := checkedPass_eq hrules ht
    rw [checkedSaturate_of_pass hpass, saturate, if_neg hfix, if_neg hfix]
    exact ih hsize

end NullTable

namespace Grammar

variable {ps : List Production} {word : List Symbol} {g : Grammar} {s : Progress}
variable {p : Production} {b : Symbol} {item : Item} {taken items : List Item} {i : Nat}

/-! ## The tables of a grammar -/

theorem checkedFile_eq {count : Nat} {rules : List Rule}
    (h : ∀ r ∈ rules, r.lhs.index < count) :
    checkedFile count rules = some (fileAlternatives count rules) := by
  refine (foldlM_eq_some (fun table : Array (List Nat) => table.size = count)
    rules.zipIdx (fun table rn hrn htable => ?_) Array.size_replicate).1
  have hlt : rn.1.lhs.index < table.size :=
    htable ▸ h rn.1 (List.mem_of_getElem? (List.mem_zipIdx_iff_getElem?.1 hrn))
  exact ⟨ifWithin_of_lt _ hlt, Array.size_modify.trans htable⟩

theorem numbers_rule (hp : p ∈ ps) :
    NullTable.Numbers (Vocabulary.ofProductions ps).nonterminals.size
      ((Vocabulary.ofProductions ps).rule p) := by
  refine ⟨Vocabulary.index_lhs_rule_lt hp, fun a ha => ?_⟩
  obtain ⟨b, -, hb⟩ := List.mem_map.1 ha
  exact Vocabulary.index_lt_of_ref_eq_nonterm hb

/-- The tables of productions are built with every look-up in range. -/
theorem checkedBuild_eq (p : Production) (ps : List Production) :
    checkedBuild (p :: ps) = some (ofStart p.lhs (p :: ps)) := by
  have hnumbers : ∀ r ∈ (p :: ps).map (Vocabulary.ofProductions (p :: ps)).rule,
      NullTable.Numbers (Vocabulary.ofProductions (p :: ps)).nonterminals.size r := by
    intro r hr
    obtain ⟨q, hq, rfl⟩ := List.mem_map.1 hr
    exact numbers_rule hq
  have hfile := checkedFile_eq fun r hr => (hnumbers r hr).1
  have hnull := NullTable.checkedSaturate_eq (t := .blank _) hnumbers Array.size_replicate
  have hstart : (Vocabulary.ofProductions (p :: ps)).nonterminals.get?
      ((Vocabulary.ofProductions (p :: ps)).rule p).lhs.index = some p.lhs :=
    Register.get?_idxOf
      (Vocabulary.mem_nonterminals_ofProductions.2 ⟨p, List.mem_cons_self .., rfl⟩)
  have hfirst : ((p :: ps).map (Vocabulary.ofProductions (p :: ps)).rule)[0]? =
      some ((Vocabulary.ofProductions (p :: ps)).rule p) := rfl
  simp only [checkedBuild, hfile, hnull, hfirst, hstart, Option.bind_eq_bind, Option.bind_some]
  rfl

/-- Every list of productions is made into a grammar, or refused, with every
look-up in range. -/
theorem checkedOfProductions_eq (ps : List Production) :
    checkedOfProductions ps = some (ofProductions ps) := by
  cases ps with
  | nil => rfl
  | cons p ps =>
    rw [checkedOfProductions, checkedBuild_eq]
    rfl

/-! ## Items -/

theorem checkedNext_eq (h : ofProductions ps = .ok g) (hp : item.Of ps p) :
    g.checkedNext item = some (item.next? g) := by
  have hp : ps[item.production]? = some p := hp
  rw [checkedNext, Item.next?, rules_getElem? h, hp]
  rfl

theorem checkedAwaiting_eq (h : ofProductions ps = .ok g) (a : NontermId)
    (hitems : ∀ x ∈ items, ∃ p, x.Of ps p) :
    g.checkedAwaiting a items = some (items.filter (·.next? g = some (.nonterm a))) := by
  induction items with
  | nil => rfl
  | cons x items ih =>
    obtain ⟨p, hp⟩ := hitems x (List.mem_cons_self ..)
    have hrest := ih fun y hy => hitems y (List.mem_cons_of_mem _ hy)
    rw [checkedAwaiting, checkedNext_eq h hp, hrest, List.filter_cons]
    show some _ = some _
    by_cases hx : x.next? g = some (.nonterm a)
    · rw [if_pos hx, if_pos (decide_eq_true hx)]
    · rw [if_neg hx, if_neg (by rwa [decide_eq_true_iff])]

/-- Items are put into a cell that exists. -/
theorem foldlM_checkedOffer (items : List Item) (hi : i < s.chart.cells.size) :
    items.foldlM (checkedOffer i) s = some (items.foldl (Progress.offer i) s) := by
  refine (foldlM_eq_some (fun t : Progress => i < t.chart.cells.size) items
    (fun t x _ ht => ⟨ifWithin_of_lt _ ht, ?_⟩) hi).1
  rwa [Progress.chart_offer, Chart.size_put]

theorem checkedNote_eq (h : ofProductions ps = .ok g) (hp : item.Of ps p) (kind : StepKind) :
    g.checkedNote s kind i item = some (s.note kind i item) := by
  have hp : ps[item.production]? = some p := hp
  rw [checkedNote, Item.display?, productions_of_ofProductions_eq_ok h, hp]
  rfl

/-! ## Steps -/

theorem checkedComplete_eq (h : ofProductions ps = .ok g) (hi : i ≤ word.length)
    (hs : Sound ps g.start word i s) (hitem : Entailed ps g.start word i item) :
    g.checkedComplete i s item =
      some ((g.completions s.chart item).foldl (Progress.offer i) s) := by
  obtain ⟨p, hp⟩ := hitem.exists_of
  have hof : ps[item.production]? = some p := hp
  have horigin : item.origin < s.chart.cells.size := by
    have hle := hitem.valid.origin_le
    have hsize := hs.size
    omega
  have hcell : s.chart.cells[item.origin]? = some (s.chart.cell item.origin) :=
    getElem?_eq_getD ∅ horigin
  have hheld : ∀ x ∈ (s.chart.cell item.origin).toList, ∃ p, x.Of ps p :=
    fun x hx => (hs.cells _ x hx).exists_of
  have hlt : i < s.chart.cells.size := by
    rw [hs.size]
    exact Nat.lt_succ_of_le hi
  rw [checkedComplete, completions, lhs?_of h hp]
  simp only [rules_getElem? h, hof, hcell, Option.map_some, Option.bind_eq_bind, Option.bind_some,
    Vocabulary.rule, checkedAwaiting_eq h _ hheld, foldlM_checkedOffer _ hlt]

theorem checkedPredict_eq (h : ofProductions ps = .ok g) (hb : IsLhs ps b)
    (hi : i < s.chart.cells.size) :
    g.checkedPredict i s item (g.vocabulary.nonterm b) =
      some ((g.predictions i item (g.vocabulary.nonterm b)).foldl (Progress.offer i) s) := by
  have hfit := tablesFit h
  have hlt : (g.vocabulary.nonterm b).index < g.nonterminals.length :=
    Register.idxOf_lt_size.2 ((mem_nonterminals h).2 hb)
  have halts : g.alternatives[(g.vocabulary.nonterm b).index]? =
      some (g.alternativesAt (g.vocabulary.nonterm b)) :=
    getElem?_eq_getD [] (hfit.alternatives ▸ hlt)
  have hflag : g.nullable[(g.vocabulary.nonterm b).index]? =
      some (g.nullableAt (g.vocabulary.nonterm b)) :=
    getElem?_eq_getD false (hfit.nullable ▸ hlt)
  rw [checkedPredict, predictions, List.foldl_append]
  simp only [halts, hflag, foldlM_checkedOffer _ hi, Option.bind_eq_bind, Option.bind_some]
  cases g.nullableAt (g.vocabulary.nonterm b) with
  | false => rfl
  | true =>
    refine ifWithin_of_lt _ ?_
    rwa [Progress.chart_foldl_offer, Chart.size_foldl_put]

/-- An item is taken with every look-up in range. -/
theorem checkedTake_eq (h : ofProductions ps = .ok g) (hi : i ≤ word.length)
    (hs : Sound ps g.start word i s) (hitem : Entailed ps g.start word i item) :
    g.checkedTake (g.tokenIds word) i s item = some (g.take (g.tokenIds word) i s item) := by
  obtain ⟨p, hp⟩ := hitem.exists_of
  have hsize := hs.size
  rw [checkedTake, checkedNext_eq h hp, take]
  rcases hp.cases with hf | ⟨b, hb, ha⟩ | ⟨token, hterm, ha⟩
  · simp only [next?_of_finished h hf, checkedNote_eq h hp, Option.bind_eq_bind, Option.bind_some]
    exact checkedComplete_eq h hi (hs.note .complete item) hitem
  · have hn := next?_of_awaits h ha
    rw [ref_of_isLhs h hb] at hn
    simp only [hn, checkedNote_eq h hp, Option.bind_eq_bind, Option.bind_some]
    exact checkedPredict_eq h hb (by rw [Progress.chart_note]; omega)
  · have hn := next?_of_awaits h ha
    rw [ref_of_not_isLhs h hterm] at hn
    simp only [hn, checkedNote_eq h hp, Option.bind_eq_bind, Option.bind_some]
    by_cases hlt : i < (g.tokenIds word).size
    · rw [if_pos hlt, Array.getElem?_eq_getElem hlt, Option.bind_some]
      by_cases ht : (g.tokenIds word)[i] = some ⟨g.vocabulary.terminals.idxOf token⟩
      · rw [if_pos ht, if_pos (congrArg some ht)]
        rw [size_tokenIds] at hlt
        exact ifWithin_of_lt _ (by rw [Progress.chart_note]; omega)
      · rw [if_neg ht, if_neg fun heq => ht (Option.some.inj heq)]
    · -- Behind the end of the word no token is looked up.
      rw [if_neg hlt, Array.getElem?_eq_none (Nat.le_of_not_lt hlt), if_neg (by simp)]

/-! ## Runs -/

theorem checkedDrain_eq (h : ofProductions ps = .ok g) (hi : i ≤ word.length) (fuel : Nat)
    (hs : Underway ps g.start word i taken s) :
    g.checkedDrain (g.tokenIds word) i fuel s = some (g.drain (g.tokenIds word) i fuel s) := by
  induction fuel generalizing taken s with
  | zero => rfl
  | succ fuel ih =>
    rw [checkedDrain, drain]
    cases hpend : s.pending with
    | nil => rfl
    | cons item rest =>
      have hitem := hs.sound i item (hs.mem_of_pending hpend)
      have htake := checkedTake_eq h hi (hs.held.of_pending hpend) hitem
      simp only [htake, Option.bind_eq_bind, Option.bind_some]
      exact ih (hs.take h hi hpend)

theorem checkedClose_eq (h : ofProductions ps = .ok g) (hi : i ≤ word.length)
    (hs : Underway ps g.start word i [] s) :
    g.checkedClose (g.tokenIds word) s i = some (g.close (g.tokenIds word) s i) := by
  rw [checkedClose, checkedDrain_eq h hi _ hs]
  rfl

theorem checkedSeed_eq (h : ofProductions ps = .ok g) (n : Nat) :
    g.checkedSeed n = some (g.seed n) := by
  have hfit := tablesFit h
  have halts : g.alternatives[g.startId.index]? = some (g.alternativesAt g.startId) :=
    getElem?_eq_getD [] (hfit.alternatives ▸ hfit.startId)
  rw [checkedSeed, halts]
  exact foldlM_checkedOffer _ (by simp)

theorem checkedReached_eq (h : ofProductions ps = .ok g) {k : Nat} (hk : k ≤ word.length + 1) :
    (List.range k).foldlM (g.checkedClose (g.tokenIds word)) (g.seed word.length) =
      some (g.reached word k) := by
  induction k with
  | zero => rfl
  | succ k ih =>
    have hs := underway_reached h word (Nat.le_of_succ_le hk)
    rw [List.range_succ, List.foldlM_append, ih (Nat.le_of_succ_le hk), reached_succ,
      Option.bind_eq_bind, Option.bind_some, List.foldlM_cons,
      checkedClose_eq h (Nat.le_of_succ_le_succ hk) hs]
    rfl

/-- Every word is recognized with every look-up in range. -/
theorem checkedRun_eq (h : ofProductions ps = .ok g) (word : List Symbol) :
    g.checkedRun word = some (g.run word) := by
  rw [checkedRun, checkedSeed_eq h]
  exact checkedReached_eq h (Nat.le_refl _)

/-! ## The verdict -/

theorem checkedIsAccepting_eq (h : ofProductions ps = .ok g) (hp : item.Of ps p) :
    g.checkedIsAccepting item = some (g.isAccepting item) := by
  have hof : ps[item.production]? = some p := hp
  rw [checkedIsAccepting, isAccepting, Item.isDone, lhs?_of h hp, rules_getElem? h, hof]
  by_cases horigin : item.origin = 0
  · simp [horigin, Vocabulary.rule]
  · simp [horigin]

theorem checkedAccepts_eq (h : ofProductions ps = .ok g) (word : List Symbol) :
    g.checkedAccepts (g.chart word) = some (g.recognizes word) := by
  have hsize := size_cells_chart h word
  have hlast : (g.chart word).cells[(g.chart word).cells.size - 1]? = some (g.chart word).last :=
    getElem?_eq_getD ∅ (by omega)
  rw [checkedAccepts, hlast]
  refine anyM_eq_some _ fun item hm => ?_
  obtain ⟨p, hp⟩ := exists_of_mem_cell h hm
  exact checkedIsAccepting_eq h hp

/-- Neither building a grammar nor recognizing a word looks up an index that is
out of range.  The tables have an entry for each number stored in them, and at
every instant of a run the items held are within bounds. -/
theorem lookups_in_range (p : Production) (ps : List Production) :
    checkedOfProductions (p :: ps) = some (ofProductions (p :: ps)) ∧
      ∃ g, ofProductions (p :: ps) = .ok g ∧ g.productions = p :: ps ∧ g.TablesFit ∧
        ∀ word, g.checkedRun word = some (g.run word) ∧
          g.checkedAccepts (g.chart word) = some (g.recognizes word) ∧
          (∀ m, (g.seeding word.length m).InBounds (p :: ps) word.length 0) ∧
          ∀ i ≤ word.length, ∀ k m, (g.instant word i k m).InBounds (p :: ps) word.length i := by
  have h : ofProductions (p :: ps) = .ok (ofStart p.lhs (p :: ps)) := rfl
  refine ⟨checkedOfProductions_eq _, _, h, rfl, tablesFit h,
    fun word => ⟨checkedRun_eq h word, checkedAccepts_eq h word, fun m => ?_,
      fun i hi k m => ?_⟩⟩
  · exact (sound_seeding h word m).inBounds
  · exact (sound_instant h hi k m).inBounds

/-- The second item of cell `0` is finished there and advances two others.  The
one of them that is new waits before the item is done with. -/
theorem lookups_in_range_twoNullables :
    0 ≤ ["x"].length ∧
      ⟨0, 2, 0⟩ ∈ ((ofStart "S" twoNullables).instant ["x"] 0 1 2).pending ∧
      (⟨0, 2, 0⟩ : Item).InBounds twoNullables 0 ∧
      (ofStart "S" twoNullables).checkedAccepts ((ofStart "S" twoNullables).chart ["x"]) =
        some true := by
  obtain ⟨-, g, hg, -, -, hword⟩ := lookups_in_range ⟨"S", ["A", "A", "x"]⟩ [⟨"A", []⟩]
  obtain rfl : ofStart "S" twoNullables = g := Except.ok.inj hg
  obtain ⟨-, haccepts, -, hinstant⟩ := hword ["x"]
  have hzero : 0 ≤ ["x"].length := Nat.zero_le _
  have hwaits : ⟨0, 2, 0⟩ ∈ ((ofStart "S" twoNullables).instant ["x"] 0 1 2).pending := by
    decide +kernel
  have hverdict : (ofStart "S" twoNullables).recognizes ["x"] = true := by decide +kernel
  refine ⟨hzero, hwaits, ((hinstant 0 hzero 1 2).pending _ hwaits).2, ?_⟩
  rw [haccepts, hverdict]

end Grammar

end ContextFree
