import ContextFree.Proofs.Entailment
import ContextFree.Recognition.Progress

/-!
# The tables of a grammar

Recognition works on numbers only.  What it reads in the tables of a grammar is
put back here into words of the productions that the grammar was built from.

* The number of a left-hand side is that of no other symbol
  (`Grammar.nonterm_inj`).
* The alternatives of a nonterminal are the indices of its productions
  (`Grammar.alternativesAt_nonterm`).
* The reference after the dot of an item is that of the symbol it awaits
  (`Grammar.next?_of_awaits`), and a terminal is the next token when the numbers
  of the two agree (`Grammar.tokenIds_eq_some_iff`).
-/

namespace ContextFree

namespace Register

variable {α : Type} [DecidableEq α] {r : Register α} {x y : α}

theorem idxOf_inj (hx : x ∈ r) : r.idxOf x = r.idxOf y ↔ x = y := by
  refine ⟨fun h => ?_, fun h => h ▸ rfl⟩
  have hy : y ∈ r := idxOf_lt_size.1 (h ▸ idxOf_lt_size.2 hx)
  have hget := get?_idxOf hx
  rw [h, get?_idxOf hy] at hget
  exact (Option.some.inj hget).symm

theorem idxOf?_eq_some_iff (hy : y ∈ r) : r.idxOf? x = some (r.idxOf y) ↔ x = y := by
  constructor
  · intro h
    have hx : x ∈ r := isSome_idxOf?.1 (h ▸ rfl)
    rw [idxOf?, if_pos hx, Option.some.injEq] at h
    exact (idxOf_inj hx).1 h
  · rintro rfl
    exact if_pos hy

end Register

/-- The indices of the productions with left-hand side `s`, in their order. -/
def indicesOf (ps : List Production) (s : Symbol) : List Nat :=
  (ps.zipIdx.filter (·.1.lhs = s)).map Prod.snd

theorem mem_indicesOf {ps : List Production} {s : Symbol} {n : Nat} :
    n ∈ indicesOf ps s ↔ ∃ p, ps[n]? = some p ∧ p.lhs = s := by
  simp [indicesOf, List.mem_zipIdx_iff_getElem?]

namespace Grammar

variable {ps : List Production} {g : Grammar} {p : Production} {b c token : Symbol}
variable {item : Item} {n i : Nat}

/-! ## Numbers and names -/

theorem exists_eq_ofStart (h : ofProductions ps = .ok g) :
    ∃ start, IsLhs ps start ∧ g = ofStart start ps := by
  cases ps with
  | nil => cases h
  | cons p ps => exact ⟨p.lhs, ⟨p, List.mem_cons_self .., rfl⟩, (Except.ok.inj h).symm⟩

theorem isLhs_start (h : ofProductions ps = .ok g) : IsLhs ps g.start := by
  obtain ⟨start, hs, rfl⟩ := exists_eq_ofStart h
  exact hs

theorem rules_getElem? (h : ofProductions ps = .ok g) (n : Nat) :
    g.rules[n]? = ps[n]?.map g.vocabulary.rule := by
  obtain ⟨start, -, rfl⟩ := exists_eq_ofStart h
  rw [ofStart, List.getElem?_toArray, List.getElem?_map]

theorem mem_nonterminals (h : ofProductions ps = .ok g) :
    b ∈ g.vocabulary.nonterminals ↔ IsLhs ps b := by
  obtain ⟨start, -, rfl⟩ := exists_eq_ofStart h
  exact Vocabulary.mem_nonterminals_ofProductions

theorem mem_terminals (h : ofProductions ps = .ok g) :
    b ∈ g.vocabulary.terminals ↔ (∃ p ∈ ps, b ∈ p.rhs) ∧ ¬ IsLhs ps b := by
  obtain ⟨start, -, rfl⟩ := exists_eq_ofStart h
  exact Vocabulary.mem_terminals_ofProductions

theorem nonterm_inj (h : ofProductions ps = .ok g) (hb : IsLhs ps b) :
    g.vocabulary.nonterm b = g.vocabulary.nonterm c ↔ b = c := by
  rw [Vocabulary.nonterm, Vocabulary.nonterm, NontermId.mk.injEq]
  exact Register.idxOf_inj ((mem_nonterminals h).2 hb)

theorem ref_of_isLhs (h : ofProductions ps = .ok g) (hb : IsLhs ps b) :
    g.vocabulary.ref b = .nonterm (g.vocabulary.nonterm b) :=
  if_pos ((mem_nonterminals h).2 hb)

theorem ref_of_not_isLhs (h : ofProductions ps = .ok g) (hb : ¬ IsLhs ps b) :
    g.vocabulary.ref b = .term ⟨g.vocabulary.terminals.idxOf b⟩ :=
  if_neg fun hm => hb ((mem_nonterminals h).1 hm)

/-! ## Alternatives -/

/-- Filing a rule appends its index to one list. -/
theorem getD_modify_append {table : Array (List Nat)} {j k : Nat} (hk : k < table.size) :
    (table.modify j (· ++ [n])).getD k [] =
      table.getD k [] ++ if j = k then [n] else [] := by
  simp only [Array.getD_eq_getD_getElem?, Array.getElem?_modify]
  split
  · subst k
    rw [Array.getElem?_eq_getElem hk]
    rfl
  · rw [List.append_nil]

theorem size_foldl_modify (rules : List (Rule × Nat)) :
    ∀ table : Array (List Nat),
      (rules.foldl (fun t (r, p) => t.modify r.lhs.index (· ++ [p])) table).size =
        table.size := by
  induction rules with
  | nil => intro table; rfl
  | cons rule rules ih => intro table; rw [List.foldl_cons, ih, Array.size_modify]

/-- Filing rules appends to each list the indices of the rules that belong
there. -/
theorem getD_foldl_modify (rules : List (Rule × Nat)) :
    ∀ (table : Array (List Nat)) {k : Nat}, k < table.size →
      (rules.foldl (fun t (r, p) => t.modify r.lhs.index (· ++ [p])) table).getD k [] =
        table.getD k [] ++ (rules.filter (·.1.lhs.index = k)).map Prod.snd := by
  induction rules with
  | nil => intro table k _; rw [List.foldl_nil, List.filter_nil, List.map_nil, List.append_nil]
  | cons rule rules ih =>
    intro table k hk
    rw [List.foldl_cons, ih _ (by rwa [Array.size_modify]), getD_modify_append hk,
      List.append_assoc, List.filter_cons]
    by_cases hr : rule.1.lhs.index = k
    · rw [if_pos hr, if_pos (decide_eq_true hr)]
      rfl
    · rw [if_neg hr, if_neg (by rwa [decide_eq_true_iff])]
      rfl

/-- The alternatives of a symbol are the indices of its productions, in their
order. -/
theorem alternativesAt_nonterm (h : ofProductions ps = .ok g) (b : Symbol) :
    g.alternativesAt (g.vocabulary.nonterm b) = indicesOf ps b := by
  have hfile : g.alternatives =
      fileAlternatives g.vocabulary.nonterminals.size (ps.map g.vocabulary.rule) := by
    obtain ⟨start, -, rfl⟩ := exists_eq_ofStart h
    rfl
  have hlhs : ∀ pn ∈ ps.zipIdx, IsLhs ps pn.1.lhs := fun pn hpn =>
    ⟨pn.1, List.mem_of_getElem? (List.mem_zipIdx_iff_getElem?.1 hpn), rfl⟩
  rw [alternativesAt, hfile, fileAlternatives, List.zipIdx_map, indicesOf]
  by_cases hb : IsLhs ps b
  · have hlt : (g.vocabulary.nonterm b).index < g.vocabulary.nonterminals.size :=
      Register.idxOf_lt_size.2 ((mem_nonterminals h).2 hb)
    have hblank : (Array.replicate g.vocabulary.nonterminals.size ([] : List Nat)).getD
        (g.vocabulary.nonterm b).index [] = [] := by
      rw [Array.getD_eq_getD_getElem?, Array.getElem?_replicate, if_pos hlt, Option.getD_some]
    rw [getD_foldl_modify _ _ (by rwa [Array.size_replicate]), hblank, List.nil_append,
      List.filter_map, List.map_map]
    refine congrArg (List.map Prod.snd) (List.filter_congr fun pn hpn => ?_)
    have hiff := nonterm_inj h (hlhs pn hpn) (c := b)
    rw [Vocabulary.nonterm, Vocabulary.nonterm, NontermId.mk.injEq] at hiff
    exact decide_eq_decide.2 hiff
  · -- A symbol that is no left-hand side has the first unused number.
    have hge : g.vocabulary.nonterminals.size ≤ (g.vocabulary.nonterm b).index :=
      Nat.le_of_not_lt fun hlt => hb ((mem_nonterminals h).1 (Register.idxOf_lt_size.1 hlt))
    rw [Array.getD_eq_getD_getElem?,
      Array.getElem?_eq_none (by rwa [size_foldl_modify, Array.size_replicate]),
      Option.getD_none, List.filter_eq_nil_iff.2, List.map_nil]
    intro pn hpn heq
    exact hb (of_decide_eq_true heq ▸ hlhs pn hpn)

theorem mem_alternativesAt (h : ofProductions ps = .ok g) :
    n ∈ g.alternativesAt (g.vocabulary.nonterm b) ↔ (Item.fresh n i).HasLhs ps b := by
  rw [alternativesAt_nonterm h]
  exact mem_indicesOf

/-! ## Items -/

theorem lhs?_of (h : ofProductions ps = .ok g) (hp : item.Of ps p) :
    item.lhs? g = some (g.vocabulary.nonterm p.lhs) := by
  have hp : ps[item.production]? = some p := hp
  rw [Item.lhs?, rules_getElem? h, hp]
  rfl

theorem lhs?_eq_some_iff (h : ofProductions ps = .ok g) (hb : IsLhs ps b) :
    item.lhs? g = some (g.vocabulary.nonterm b) ↔ item.HasLhs ps b := by
  constructor
  · intro hl
    cases hp : ps[item.production]? with
    | none =>
      rw [Item.lhs?, rules_getElem? h, hp] at hl
      cases hl
    | some p =>
      have hof : item.Of ps p := hp
      rw [lhs?_of h hof, Option.some.injEq] at hl
      exact ⟨p, hp, ((nonterm_inj h hb).1 hl.symm).symm⟩
  · rintro ⟨p, hp, rfl⟩
    exact lhs?_of h hp

theorem isDone_iff (h : ofProductions ps = .ok g) : item.isDone g = true ↔ item.Finished ps := by
  rw [Item.isDone, rules_getElem? h, Option.any_eq_true]
  constructor
  · rintro ⟨r, hr, hle⟩
    obtain ⟨p, hp, rfl⟩ := Option.map_eq_some_iff.1 hr
    rw [decide_eq_true_iff, Vocabulary.rule, List.length_map] at hle
    exact ⟨p, hp, hle⟩
  · rintro ⟨p, hp, hle⟩
    refine ⟨g.vocabulary.rule p, Option.map_eq_some_iff.2 ⟨p, hp, rfl⟩, ?_⟩
    rw [decide_eq_true_iff, Vocabulary.rule, List.length_map]
    exact hle

theorem next?_of (h : ofProductions ps = .ok g) (hp : item.Of ps p) :
    item.next? g = p.rhs[item.dot]?.map g.vocabulary.ref := by
  have hp : ps[item.production]? = some p := hp
  rw [Item.next?, rules_getElem? h, hp]
  exact List.getElem?_map ..

theorem next?_of_awaits (h : ofProductions ps = .ok g) (ha : item.Awaits ps b) :
    item.next? g = some (g.vocabulary.ref b) := by
  obtain ⟨p, hp, hb⟩ := ha
  rw [next?_of h hp, hb]
  rfl

theorem next?_of_finished (h : ofProductions ps = .ok g) (hf : item.Finished ps) :
    item.next? g = none := by
  obtain ⟨p, hp, hle⟩ := hf
  rw [next?_of h hp, List.getElem?_eq_none hle]
  rfl

/-- The reference to a nonterminal after the dot says that it is awaited. -/
theorem next?_eq_nonterm_iff (h : ofProductions ps = .ok g) (hb : IsLhs ps b) :
    item.next? g = some (.nonterm (g.vocabulary.nonterm b)) ↔ item.Awaits ps b := by
  refine ⟨fun hnext => ?_, fun ha => by rw [next?_of_awaits h ha, ref_of_isLhs h hb]⟩
  cases hp : ps[item.production]? with
  | none =>
    rw [Item.next?, rules_getElem? h, hp] at hnext
    cases hnext
  | some p =>
    have hof : item.Of ps p := hp
    rw [next?_of h hof] at hnext
    obtain ⟨c, hc, href⟩ := Option.map_eq_some_iff.1 hnext
    by_cases hlhs : IsLhs ps c
    · rw [ref_of_isLhs h hlhs, SymbolRef.nonterm.injEq] at href
      exact ⟨p, hp, (nonterm_inj h hlhs).1 href ▸ hc⟩
    · rw [ref_of_not_isLhs h hlhs] at href
      cases href

/-! ## Tokens -/

/-- The number at a position is that of a terminal exactly when the terminal
stands there. -/
theorem tokenIds_eq_some_iff (h : ofProductions ps = .ok g) {word : List Symbol}
    (ha : item.Awaits ps token) (hterm : ¬ IsLhs ps token) :
    (g.tokenIds word)[i]? = some (some ⟨g.vocabulary.terminals.idxOf token⟩) ↔
      word[i]? = some token := by
  have hm : token ∈ g.vocabulary.terminals := by
    obtain ⟨p, hp, hb⟩ := ha
    exact (mem_terminals h).2 ⟨⟨p, hp.mem, List.mem_of_getElem? hb⟩, hterm⟩
  rw [tokenIds, List.getElem?_toArray, List.getElem?_map, Option.map_eq_some_iff]
  constructor
  · rintro ⟨a, ha, hid⟩
    rw [tokenId?, Vocabulary.term?, Option.map_eq_some_iff] at hid
    obtain ⟨k, hk, heq⟩ := hid
    obtain rfl := TermId.mk.inj heq
    rwa [← (Register.idxOf?_eq_some_iff hm).1 hk]
  · intro ht
    refine ⟨token, ht, ?_⟩
    rw [tokenId?, Vocabulary.term?, (Register.idxOf?_eq_some_iff hm).2 rfl]
    rfl

end Grammar

end ContextFree
