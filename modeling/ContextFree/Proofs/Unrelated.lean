import ContextFree.Proofs.Alternatives
import ContextFree.Proofs.Moments
import ContextFree.Proofs.Renaming

/-!
# Unrelated productions

Productions whose left-hand sides do not occur in a grammar leave its charts as
they are, item by item and in the same order, when they are put behind those of
the grammar (`Grammar.recognition_of_unrelated`).  They may use its symbols, so
there can be new terminals and so known tokens, and all tables get longer.

*Symbols.*  A production is used for its left-hand side only, and the productions
of a grammar lead from its symbols to its symbols.  So these yield what they did
(`Unrelated.yields_iff`).

*Items.*  An item of an old production is told the same by both lists, as far as
a rule asks for anything (`Item.Of.exists_append_iff`), and what it is used for
adds the same items in the same order.

*Runs.*  The longer run goes step by step with the shorter one, and all that is
needed is that the shorter one holds items of old productions, which is part of
its invariant (`Grammar.drain_of_unrelated`).  A position has a larger capacity
in the longer run.  Nothing waits any more when that makes a difference.
-/

namespace ContextFree

open Grammar (ofProductions)

variable {ps es : List Production} {g g' : Grammar} {word : List Symbol} {s : Progress}
variable {p : Production} {item : Item} {taken : List Item} {b : Symbol} {i k : Nat}

/-- No left-hand side of the second list occurs in the first, on either side. -/
def Unrelated (ps es : List Production) : Prop := ∀ e ∈ es, e.lhs ∉ symbols ps

/-! ## Symbols -/

theorem IsLhs.mem_symbols (h : IsLhs ps b) : b ∈ symbols ps := by
  obtain ⟨p, hp, rfl⟩ := h
  exact lhs_mem_symbols hp

namespace Unrelated

theorem not_isLhs (ha : Unrelated ps es) (hb : b ∈ symbols ps) : ¬ IsLhs es b := by
  rintro ⟨e, he, rfl⟩
  exact ha e he hb

theorem isLhs_iff (ha : Unrelated ps es) (hb : b ∈ symbols ps) :
    IsLhs (ps ++ es) b ↔ IsLhs ps b := by
  rw [isLhs_append, or_iff_left (ha.not_isLhs hb)]

/-- Symbols of the first list yield the same with the second as without it. -/
theorem yields_iff (ha : Unrelated ps es) {u w : List Symbol} (hu : ∀ a ∈ u, a ∈ symbols ps) :
    Yields (ps ++ es) u w ↔ Yields ps u w := by
  constructor
  · intro hy
    induction hy with
    | nil => exact .nil
    | @term token u w hterm _ ih =>
      have hold : ¬ IsLhs ps token := fun hlhs => hterm (isLhs_append.2 (.inl hlhs))
      exact .term hold (ih fun a hm => hu a (List.mem_cons_of_mem _ hm))
    | @nonterm p u v w hp _ _ ihv ihw =>
      have hlhs : p.lhs ∈ symbols ps := hu _ (List.mem_cons_self ..)
      cases List.mem_append.1 hp with
      | inl hp =>
        exact .nonterm hp (ihv fun a hm => mem_symbols_of_mem_rhs hp hm)
          (ihw fun a hm => hu a (List.mem_cons_of_mem _ hm))
      | inr hp => exact absurd hlhs (ha p hp)
  · intro hy
    induction hy with
    | nil => exact .nil
    | @term token u w hterm _ ih =>
      have hboth : ¬ IsLhs (ps ++ es) token :=
        (ha.isLhs_iff (hu token (List.mem_cons_self ..))).not.2 hterm
      exact .term hboth (ih fun a hm => hu a (List.mem_cons_of_mem _ hm))
    | @nonterm p u v w hp _ _ ihv ihw =>
      exact .nonterm (List.mem_append_left es hp) (ihv fun a hm => mem_symbols_of_mem_rhs hp hm)
        (ihw fun a hm => hu a (List.mem_cons_of_mem _ hm))

end Unrelated

/-! ## Items -/

namespace Item

theorem Of.append (hp : item.Of ps p) : item.Of (ps ++ es) p := by
  obtain ⟨hlt, -⟩ := List.getElem?_eq_some_iff.1 hp
  exact (List.getElem?_append_left hlt).trans hp

/-- What is said of an item by its production, if that is an old one, is the same
for both lists. -/
theorem Of.exists_append_iff {q : Production → Prop} (hp : item.Of ps p) :
    (∃ r, item.Of (ps ++ es) r ∧ q r) ↔ ∃ r, item.Of ps r ∧ q r := by
  constructor
  · rintro ⟨r, hr, hq⟩
    obtain rfl := hr.unique hp.append
    exact ⟨r, hp, hq⟩
  · rintro ⟨r, hr, hq⟩
    exact ⟨r, hr.append, hq⟩

theorem Of.awaits_append_iff (hp : item.Of ps p) :
    item.Awaits (ps ++ es) b ↔ item.Awaits ps b := hp.exists_append_iff

theorem Of.hasLhs_append_iff (hp : item.Of ps p) :
    item.HasLhs (ps ++ es) b ↔ item.HasLhs ps b := hp.exists_append_iff

theorem Of.finished_append_iff (hp : item.Of ps p) :
    item.Finished (ps ++ es) ↔ item.Finished ps := hp.exists_append_iff

theorem Awaits.mem_symbols (h : item.Awaits ps b) : b ∈ symbols ps := by
  obtain ⟨p, hp, hb⟩ := h
  exact mem_symbols_of_mem_rhs hp.mem (List.mem_of_getElem? hb)

end Item

theorem indicesOf_append (hb : ¬ IsLhs es b) : indicesOf (ps ++ es) b = indicesOf ps b := by
  have hnone : (es.zipIdx (0 + ps.length)).filter (·.1.lhs = b) = [] := by
    refine List.filter_eq_nil_iff.2 fun pn hpn heq => hb ?_
    exact ⟨pn.1, List.fst_mem_of_mem_zipIdx hpn, of_decide_eq_true heq⟩
  rw [indicesOf, List.zipIdx_append, List.filter_append, hnone, List.append_nil]
  rfl

namespace Grammar

/-! ## Steps -/

section Steps

variable (h : ofProductions ps = .ok g) (h' : ofProductions (ps ++ es) = .ok g')
variable (ha : Unrelated ps es)
include h h' ha

theorem alternativesAt_of_unrelated (hb : b ∈ symbols ps) :
    g'.alternativesAt (g'.vocabulary.nonterm b) = g.alternativesAt (g.vocabulary.nonterm b) := by
  rw [alternativesAt_nonterm h, alternativesAt_nonterm h']
  exact indicesOf_append (ha.not_isLhs hb)

theorem nullableAt_of_unrelated (hb : IsLhs ps b) :
    g'.nullableAt (g'.vocabulary.nonterm b) = g.nullableAt (g.vocabulary.nonterm b) := by
  have hlhs : IsLhs (ps ++ es) b := isLhs_append.2 (.inl hb)
  rw [Bool.eq_iff_iff, nullableAt_iff_yields h hb, nullableAt_iff_yields h' hlhs]
  exact ha.yields_iff (by simpa using hb.mem_symbols)

theorem predictions_of_unrelated (hb : IsLhs ps b) :
    g'.predictions i item (g'.vocabulary.nonterm b) =
      g.predictions i item (g.vocabulary.nonterm b) := by
  rw [predictions, predictions, alternativesAt_of_unrelated h h' ha hb.mem_symbols,
    nullableAt_of_unrelated h h' ha hb]

omit ha in
/-- A finished item finds the same parents in a cell of old items. -/
theorem completions_of_held {chart : Chart} (hp : item.Of ps p)
    (hheld : ∀ x ∈ chart.cell item.origin, ∃ q, x.Of ps q) :
    g'.completions chart item = g.completions chart item := by
  have hlhs : IsLhs ps p.lhs := ⟨p, hp.mem, rfl⟩
  have hlhs' : IsLhs (ps ++ es) p.lhs := isLhs_append.2 (.inl hlhs)
  simp only [completions, lhs?_of h hp, lhs?_of h' hp.append]
  refine congrArg (List.map Item.advance) (List.filter_congr fun x hx => ?_)
  obtain ⟨q, hq⟩ := hheld x (Register.mem_iff.2 hx)
  rw [decide_eq_decide, next?_eq_nonterm_iff h hlhs, next?_eq_nonterm_iff h' hlhs']
  exact hq.awaits_append_iff

/-- Taking an item of an old production does the same for both grammars. -/
theorem take_of_unrelated (hp : item.Of ps p)
    (hheld : ∀ x ∈ s.chart.cell item.origin, ∃ q, x.Of ps q) :
    g'.take (g'.tokenIds word) i s item = g.take (g.tokenIds word) i s item := by
  rcases hp.cases with hf | ⟨b, hb, hawaits⟩ | ⟨token, hterm, hawaits⟩
  · have hf' : item.Finished (ps ++ es) := hp.finished_append_iff.2 hf
    rw [take_of_finished h hf, take_of_finished h' hf', completions_of_held h h' hp hheld]
  · have hawaits' : item.Awaits (ps ++ es) b := hp.awaits_append_iff.2 hawaits
    have hb' : IsLhs (ps ++ es) b := isLhs_append.2 (.inl hb)
    rw [take_of_awaits h hawaits hb, take_of_awaits h' hawaits' hb',
      predictions_of_unrelated h h' ha hb]
  · have hawaits' : item.Awaits (ps ++ es) token := hp.awaits_append_iff.2 hawaits
    have hterm' : ¬ IsLhs (ps ++ es) token := (ha.isLhs_iff hawaits.mem_symbols).not.2 hterm
    rw [take_of_awaits_term h hawaits hterm, take_of_awaits_term h' hawaits' hterm']

/-- So does taking any number of items. -/
theorem drain_of_unrelated (hi : i ≤ word.length) (fuel : Nat)
    (hs : Underway ps g.start word i taken s) :
    g'.drain (g'.tokenIds word) i fuel s = g.drain (g.tokenIds word) i fuel s := by
  induction fuel generalizing taken s with
  | zero => rfl
  | succ fuel ih =>
    rw [drain, drain]
    cases hpend : s.pending with
    | nil => rfl
    | cons item rest =>
      have hof : ∀ j, ∀ x ∈ s.chart.cell j, ∃ q, x.Of ps q :=
        fun j x hx => (hs.sound j x hx).exists_of
      obtain ⟨p, hp⟩ := hof i item (hs.mem_of_pending hpend)
      have htake : g'.take (g'.tokenIds word) i { s with pending := rest } item =
          g.take (g.tokenIds word) i { s with pending := rest } item :=
        take_of_unrelated h h' ha hp (hof item.origin)
      simp only [htake]
      exact ih (hs.take h hi hpend)

/-! ## Runs -/

omit ha in
theorem capacity_le_append (i : Nat) : g.capacity i ≤ g'.capacity i := by
  have hrhs : g.rhsTotal ≤ g'.rhsTotal := by
    rw [rhsTotal, rhsTotal, productions_of_ofProductions_eq_ok h,
      productions_of_ofProductions_eq_ok h', List.flatMap_append, List.length_append]
    exact Nat.le_add_right ..
  rw [capacity, capacity, productions_of_ofProductions_eq_ok h,
    productions_of_ofProductions_eq_ok h', List.length_append]
  exact Nat.add_le_add (Nat.le_add_right ..) (Nat.mul_le_mul_left (i + 1) hrhs)

/-- The larger capacity allows for more than there is to take. -/
theorem close_of_unrelated (hi : i ≤ word.length) (hs : Underway ps g.start word i [] s) :
    g'.close (g'.tokenIds word) s i = g.close (g.tokenIds word) s i := by
  obtain ⟨extra, hextra⟩ := Nat.exists_eq_add_of_le (capacity_le_append h h' i)
  obtain ⟨taken, -, hpend⟩ := hs.drain_capacity h hi
  have hdrain : g'.drain (g'.tokenIds word) i (g'.capacity i) s =
      g.drain (g.tokenIds word) i (g.capacity i) s :=
    calc g'.drain (g'.tokenIds word) i (g'.capacity i) s
        = g.drain (g.tokenIds word) i (g.capacity i + extra) s := by
          rw [drain_of_unrelated h h' ha hi _ hs, hextra]
      _ = g.drain (g.tokenIds word) i extra (g.drain (g.tokenIds word) i (g.capacity i) s) :=
          drain_add ..
      _ = g.drain (g.tokenIds word) i (g.capacity i) s := drain_of_pending_eq_nil hpend extra
  simp only [close, hdrain]

theorem reached_of_unrelated (hstart : g'.start = g.start) (hk : k ≤ word.length + 1) :
    g'.reached word k = g.reached word k := by
  induction k with
  | zero =>
    have hsymbol : g.start ∈ symbols ps := (isLhs_start h).mem_symbols
    have hseed : g'.alternativesAt g'.startId = g.alternativesAt g.startId := by
      rw [startId, startId, hstart]
      exact alternativesAt_of_unrelated h h' ha hsymbol
    show g'.seed word.length = g.seed word.length
    rw [seed, seed, hseed]
  | succ k ih =>
    have hs := underway_reached h word (Nat.le_of_succ_le hk)
    rw [reached_succ, reached_succ, ih (Nat.le_of_succ_le hk)]
    exact close_of_unrelated h h' ha (Nat.le_of_succ_le_succ hk) hs

theorem run_of_unrelated (hstart : g'.start = g.start) (word : List Symbol) :
    g'.run word = g.run word :=
  reached_of_unrelated h h' ha hstart (Nat.le_refl _)

theorem recognizes_of_unrelated (hstart : g'.start = g.start) (word : List Symbol) :
    g'.recognizes word = g.recognizes word := by
  have hchart : g'.chart word = g.chart word :=
    congrArg Progress.chart (run_of_unrelated h h' ha hstart word)
  rw [Bool.eq_iff_iff, recognizes_iff_mem h, recognizes_iff_mem h', hchart, hstart]
  refine exists_congr fun item => and_congr_right fun hm => ?_
  obtain ⟨p, hp⟩ := ((mem_cell_iff_entailed h).1 hm).exists_of
  rw [hp.finished_append_iff, hp.hasLhs_append_iff]

theorem isNullable_of_unrelated (hb : b ∈ symbols ps) : g'.isNullable b = g.isNullable b := by
  rw [Bool.eq_iff_iff, isNullable_iff_yields h, isNullable_iff_yields h']
  exact ha.yields_iff (by simpa using hb)

end Steps

/-- When productions are put behind those of a grammar and no left-hand side of
theirs occurs in it, every word has the chart that it had, whatever tokens it has.
So the verdict is the same, and the symbols of the grammar are nullable as
before. -/
theorem recognition_of_unrelated (p : Production) (ps es : List Production)
    (ha : Unrelated (p :: ps) es) :
    ∃ g g', ofProductions (p :: ps) = .ok g ∧ ofProductions (p :: ps ++ es) = .ok g' ∧
      (∀ word, g'.chart word = g.chart word ∧ g'.recognizes word = g.recognizes word) ∧
      ∀ s ∈ symbols (p :: ps), g'.isNullable s = g.isNullable s := by
  have h : ofProductions (p :: ps) = .ok (ofStart p.lhs (p :: ps)) := rfl
  have h' : ofProductions (p :: ps ++ es) = .ok (ofStart p.lhs (p :: ps ++ es)) := rfl
  refine ⟨_, _, h, h', fun word => ⟨?_, ?_⟩, fun s hs => ?_⟩
  · exact congrArg Progress.chart (run_of_unrelated h h' ha rfl word)
  · exact recognizes_of_unrelated h h' ha rfl word
  · exact isNullable_of_unrelated h h' ha hs

/-- `T -> S d T` and `T ->`, which use the start symbol of `nestedPairs`. -/
def pairRows : List Production := [⟨"T", ["S", "d", "T"]⟩, ⟨"T", []⟩]

/-- With `pairRows` behind `nestedPairs` the token `d` is known, but no item gets
over it, and the pair before it is found as it was. -/
theorem recognition_of_unrelated_pairRows :
    Unrelated nestedPairs pairRows ∧
      (ofStart "S" (nestedPairs ++ pairRows)).isTerminal "d" = true ∧
      ((ofStart "S" (nestedPairs ++ pairRows)).chart ["a", "b", "d"]).sizes = [2, 4, 1, 0] ∧
      (ofStart "S" (nestedPairs ++ pairRows)).recognizes ["a", "b"] = true := by
  have ha : Unrelated nestedPairs pairRows := by simp [Unrelated, symbols, nestedPairs, pairRows]
  obtain ⟨g, g', hg, hg', hword, -⟩ :=
    recognition_of_unrelated ⟨"S", ["a", "S", "b"]⟩ [⟨"S", []⟩] pairRows ha
  obtain rfl : ofStart "S" nestedPairs = g := Except.ok.inj hg
  obtain rfl : ofStart "S" (nestedPairs ++ pairRows) = g' := Except.ok.inj hg'
  refine ⟨ha, by decide +kernel, ?_, ?_⟩
  · rw [(hword ["a", "b", "d"]).1]
    decide +kernel
  · rw [(hword ["a", "b"]).2]
    decide +kernel

end Grammar

end ContextFree
