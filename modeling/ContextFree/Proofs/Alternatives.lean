import Mathlib.Logic.ExistsUnique
import ContextFree.Proofs.Bounds
import ContextFree.Proofs.Interning
import ContextFree.Proofs.Nullables

/-!
# Alternatives and their productions

A production is only ever found through its left-hand side: a question by name
looks up the list of alternatives of a symbol, and so do the start of a
recognition and each prediction.  The lists are filled rule by rule, each rule
going to the list that its number tells.  None is lost on the way, none is filed
twice and none in a wrong place (`Grammar.alternatives_partition`).

Everything follows from what each list is.  The list of a nonterminal has the
indices of its productions in their order (`Grammar.alternatives_getElem?`).  So
it goes up, it leads back to the productions as they were supplied
(`filterMap_indicesOf`), and an index is in the list of the left-hand side of its
production and in no other.
-/

namespace ContextFree

open Grammar (ofProductions)

variable {ps : List Production} {g : Grammar} {s : Symbol}

/-! ## Indices of productions -/

theorem pairwise_indicesOf (ps : List Production) (s : Symbol) :
    (indicesOf ps s).Pairwise (· < ·) := by
  have hall : (ps.zipIdx.map Prod.snd).Pairwise (· < ·) := by
    rw [List.zipIdx_map_snd]
    exact List.pairwise_lt_range'
  exact hall.sublist (List.filter_sublist.map Prod.snd)

/-- The indices lead back to the productions. -/
theorem filterMap_indicesOf (ps : List Production) (s : Symbol) :
    (indicesOf ps s).filterMap (ps[·]?) = ps.filter (·.lhs = s) := by
  have hget : ∀ pn ∈ ps.zipIdx.filter (·.1.lhs = s), ps[pn.2]? = some pn.1 := by
    intro pn hpn
    exact List.mem_zipIdx_iff_getElem?.1 (List.mem_filter.1 hpn).1
  calc (indicesOf ps s).filterMap (ps[·]?)
      = (ps.zipIdx.filter (·.1.lhs = s)).filterMap (fun pn => ps[pn.2]?) := by
        rw [indicesOf, List.filterMap_map]; rfl
    _ = (ps.zipIdx.filter (·.1.lhs = s)).filterMap (fun pn => some pn.1) :=
        List.filterMap_congr hget
    _ = (ps.zipIdx.filter (·.1.lhs = s)).map Prod.fst := by rw [List.filterMap_eq_map']
    _ = (ps.zipIdx.map Prod.fst).filter (·.lhs = s) := by rw [List.filter_map]; rfl
    _ = ps.filter (·.lhs = s) := by rw [List.zipIdx_map_fst]

/-- The lists have the numbers below `n` among them, each in one list and once
there, and each list goes up. -/
structure Partition (lists : Array (List Nat)) (n : Nat) : Prop where
  /-- No list has a number twice or before a smaller one. -/
  ascending : ∀ l ∈ lists, l.Pairwise (· < ·)
  /-- There are no other numbers. -/
  lt : ∀ l ∈ lists, ∀ k ∈ l, k < n
  /-- Each number is in one list. -/
  existsUnique : ∀ k < n, ∃! a : Nat, ∃ l, lists[a]? = some l ∧ k ∈ l

namespace Grammar

/-! ## The lists -/

/-- The number of a nonterminal is its place among the nonterminals. -/
theorem nonterm_of_getElem? (h : ofProductions ps = .ok g) {a : Nat}
    (ha : g.nonterminals[a]? = some s) : g.vocabulary.nonterm s = ⟨a⟩ := by
  obtain ⟨hlt, rfl⟩ := List.getElem?_eq_some_iff.1 ha
  exact congrArg NontermId.mk ((firstComing_nonterminals h).nodup.idxOf_getElem a hlt)

/-- For each nonterminal there is the list of the indices of its productions. -/
theorem alternatives_getElem? (h : ofProductions ps = .ok g) (a : Nat) :
    g.alternatives[a]? = g.nonterminals[a]?.map (indicesOf ps) := by
  have hsize : g.alternatives.size = g.nonterminals.length := (tablesFit h).alternatives
  cases hs : g.nonterminals[a]? with
  | none =>
    have hle : g.nonterminals.length ≤ a := List.getElem?_eq_none_iff.1 hs
    exact Array.getElem?_eq_none (hsize ▸ hle)
  | some s =>
    have hlt : a < g.alternatives.size := hsize ▸ (List.getElem?_eq_some_iff.1 hs).1
    have hlist : g.alternatives.getD a [] = indicesOf ps s := by
      have halternatives := alternativesAt_nonterm h s
      rwa [nonterm_of_getElem? h hs] at halternatives
    rw [Array.getElem?_eq_getElem hlt, Option.map_some, ← hlist]
    simp [hlt]

theorem exists_of_mem_alternatives (h : ofProductions ps = .ok g) {l : List Nat}
    (hl : l ∈ g.alternatives) : ∃ s, l = indicesOf ps s := by
  obtain ⟨a, ha⟩ := Array.getElem?_of_mem hl
  rw [alternatives_getElem? h, Option.map_eq_some_iff] at ha
  obtain ⟨s, -, rfl⟩ := ha
  exact ⟨s, rfl⟩

theorem partition_alternatives (h : ofProductions ps = .ok g) :
    Partition g.alternatives ps.length where
  ascending l hl := by
    obtain ⟨s, rfl⟩ := exists_of_mem_alternatives h hl
    exact pairwise_indicesOf ps s
  lt l hl n hn := by
    obtain ⟨s, rfl⟩ := exists_of_mem_alternatives h hl
    obtain ⟨p, hp, -⟩ := mem_indicesOf.1 hn
    exact (List.getElem?_eq_some_iff.1 hp).1
  existsUnique n hn := by
    have hp : ps[n]? = some ps[n] := List.getElem?_eq_getElem hn
    have hlhs : ps[n].lhs ∈ g.nonterminals :=
      (mem_nonterminals h).2 ⟨ps[n], List.getElem_mem hn, rfl⟩
    obtain ⟨a, ha⟩ := List.getElem?_of_mem hlhs
    refine ⟨a, ⟨indicesOf ps ps[n].lhs, ?_, mem_indicesOf.2 ⟨_, hp, rfl⟩⟩, ?_⟩
    · rw [alternatives_getElem? h, ha]
      rfl
    · -- A list with the index is that of the same left-hand side, which has one number.
      rintro b ⟨l, hl, hm⟩
      rw [alternatives_getElem? h, Option.map_eq_some_iff] at hl
      obtain ⟨s, hs, rfl⟩ := hl
      obtain ⟨q, hq, rfl⟩ := mem_indicesOf.1 hm
      rw [hp, Option.some.injEq] at hq
      have hsame := nonterm_of_getElem? h ha
      rw [hq, nonterm_of_getElem? h hs] at hsame
      exact NontermId.mk.inj hsame

/-! ## Productions by name -/

theorem productionsFor_eq_filter (h : ofProductions ps = .ok g) (s : Symbol) :
    g.productionsFor s = ps.filter (·.lhs = s) := by
  have hproductions := productions_of_ofProductions_eq_ok h
  by_cases hs : IsLhs ps s
  · have hnumber := Vocabulary.nonterm?_of_mem ((mem_nonterminals h).2 hs)
    simp only [productionsFor, hnumber, alternativesAt_nonterm h, hproductions]
    exact filterMap_indicesOf ps s
  · have hnumber := Vocabulary.nonterm?_of_not_mem fun hm => hs ((mem_nonterminals h).1 hm)
    simp only [productionsFor, hnumber]
    refine (List.filter_eq_nil_iff.2 fun p hp hlhs => ?_).symm
    exact hs ⟨p, hp, of_decide_eq_true hlhs⟩

theorem productionsFor_ne_nil_iff (h : ofProductions ps = .ok g) (s : Symbol) :
    g.productionsFor s ≠ [] ↔ g.isNonterminal s = true := by
  rw [productionsFor_eq_filter h, isNonterminal, decide_eq_true_iff, mem_nonterminals h, IsLhs]
  simp [List.filter_eq_nil_iff]

/-- Asked for the productions of a symbol, a grammar gives those supplied with
that left-hand side, all of them and in their order, and it has some to give
exactly for a nonterminal.  The lists in which it finds them part the indices of
all productions among them. -/
theorem alternatives_partition (p : Production) (ps : List Production) :
    ∃ g, ofProductions (p :: ps) = .ok g ∧
      (∀ s, g.productionsFor s = (p :: ps).filter (·.lhs = s) ∧
        (g.productionsFor s ≠ [] ↔ g.isNonterminal s = true)) ∧
      Partition g.alternatives (p :: ps).length := by
  have h : ofProductions (p :: ps) = .ok (ofStart p.lhs (p :: ps)) := rfl
  refine ⟨_, h, fun s => ⟨?_, ?_⟩, partition_alternatives h⟩
  · exact productionsFor_eq_filter h s
  · exact productionsFor_ne_nil_iff h s

/-- `S -> A`, `A -> x`, `S -> A` again and `A ->`. -/
def alternating : List Production := [⟨"S", ["A"]⟩, ⟨"A", ["x"]⟩, ⟨"S", ["A"]⟩, ⟨"A", []⟩]

/-- A production that is supplied twice is found twice, and a terminal has
none.  The last production is in one list. -/
theorem alternatives_partition_alternating :
    (ofStart "S" alternating).productionsFor "S" = [⟨"S", ["A"]⟩, ⟨"S", ["A"]⟩] ∧
      (ofStart "S" alternating).productionsFor "x" = [] ∧
      ∃! a : Nat, ∃ l, (ofStart "S" alternating).alternatives[a]? = some l ∧ 3 ∈ l := by
  obtain ⟨g, hg, hproductions, hpartition⟩ :=
    alternatives_partition ⟨"S", ["A"]⟩ [⟨"A", ["x"]⟩, ⟨"S", ["A"]⟩, ⟨"A", []⟩]
  obtain rfl : ofStart "S" alternating = g := Except.ok.inj hg
  refine ⟨?_, ?_, hpartition.existsUnique 3 (by simp)⟩
  · exact (hproductions "S").1.trans (by simp)
  · exact (hproductions "x").1.trans (by simp)

end Grammar

end ContextFree
