import Mathlib.Algebra.GroupWithZero.Nat
import Mathlib.Data.List.Dedup
import ContextFree.Proofs.Moments

/-!
# Loops left to themselves

Two loops have no bound of their own.  Passes over the null table are repeated
until one changes nothing, and at a position of a word items are taken until
none waits, while every item taken may add more to wait.  Both are described
here as they run when nothing stops them, and both come to an end
(`Grammar.loops_end`).

*Passes* (`NullTable.Passes`).  Each pass but the last sets a flag that was not
set, and there is one flag for each nonterminal.

*Items* (`Takes`).  Those taken at a position are the front of its finished
cell, in the order of the cell, however far the loop has come.  None waits
exactly when they are all of the cell.  So the loop takes as many items as the
cell holds, which is no more than the capacity of the position.

That the recognition of a word is the one these loops make takes an induction on
the positions (`Grammar.comes_iff`).  A course that has come to a position took
all items of the positions before, and how often it was allowed to go on does
not matter, once it was often enough.
-/

namespace ContextFree

open Grammar (ofProductions)

/-! ## Passes over the null table -/

namespace NullTable

variable {rules : List Rule} {t u : NullTable} {n : Nat}

/-- So many passes lead from one table to another.  After each of them but the
last the table was changed, and so one more is made. -/
inductive Passes (rules : List Rule) : Nat → NullTable → NullTable → Prop
  /-- A pass that changes nothing is the last one. -/
  | last {t : NullTable} : t.pass rules = t → Passes rules 1 t t
  /-- After a pass that changes the table the loop goes on. -/
  | more {n : Nat} {t u : NullTable} :
      t.pass rules ≠ t → Passes rules n (t.pass rules) u → Passes rules (n + 1) t u

theorem passes_saturate (rules : List Rule) (t : NullTable) :
    Passes rules (saturate rules t).passes t (saturate rules t).table := by
  induction t using saturate.induct rules with
  | case1 t _ hfix =>
    rw [saturate, if_pos hfix]
    exact .last hfix
  | case2 t _ hchange ih =>
    rw [saturate, if_neg hchange]
    exact .more hchange ih

/-- Each pass but the last sets a flag for good. -/
theorem Passes.add_unknown_le (h : Passes rules n t u) : n + u.unknown ≤ t.unknown + 1 := by
  induction h with
  | last _ => omega
  | more hchange _ ih =>
    have hless := unknown_pass_lt hchange
    omega

/-- A table leads to one table only, by a number of passes of its own. -/
theorem Passes.unique {m : Nat} {v : NullTable} (h : Passes rules n t u)
    (h' : Passes rules m t v) : n = m ∧ u = v := by
  induction h generalizing m with
  | last hfix =>
    cases h' with
    | last _ => exact ⟨rfl, rfl⟩
    | more hchange _ => exact absurd hfix hchange
  | more hchange _ ih =>
    cases h' with
    | last hfix => exact absurd hfix hchange
    | more _ hrest =>
      obtain ⟨rfl, rfl⟩ := ih hrest
      exact ⟨rfl, rfl⟩

theorem unknown_blank (n : Nat) : (blank n).unknown = n := by
  simp [unknown, blank]

end NullTable

/-! ## Items taken at a position -/

/-- These items are taken at position `i`, one after the other, each the oldest
of those that wait.  Their number has no bound. -/
inductive Takes (g : Grammar) (tokens : Array (Option TermId)) (i : Nat) :
    List Item → Progress → Progress → Prop
  /-- None is taken. -/
  | nil {s : Progress} : Takes g tokens i [] s s
  /-- One is taken, and then others. -/
  | cons {s t : Progress} {item : Item} {rest items : List Item} :
      s.pending = item :: rest →
      Takes g tokens i items (g.take tokens i { s with pending := rest } item) t →
      Takes g tokens i (item :: items) s t

/-- A recognition comes to position `i` when at each position before it items
were taken until none waited. -/
inductive Comes (g : Grammar) (word : List Symbol) : Nat → Progress → Prop
  /-- Every recognition comes to position `0`. -/
  | seed : Comes g word 0 (g.seed word.length)
  /-- When no item waits it turns to the next position. -/
  | turn {i : Nat} {s t : Progress} {items : List Item} :
      Comes g word i s → Takes g (g.tokenIds word) i items s t → t.pending = [] →
      Comes g word (i + 1) { t with pending := t.pending ++ t.scanned, scanned := [] }

variable {ps : List Production} {word : List Symbol} {g : Grammar}
variable {tokens : Array (Option TermId)} {s t : Progress} {taken items : List Item} {i k : Nat}

namespace Takes

theorem eq_drain (h : Takes g tokens i items s t) : t = g.drain tokens i items.length s := by
  induction h with
  | nil => rfl
  | cons hpend _ ih =>
    rw [List.length_cons, Grammar.drain, hpend]
    exact ih

/-- Any number of items can be taken, as long as some wait. -/
theorem exists_drain (g : Grammar) (tokens : Array (Option TermId)) (i fuel : Nat)
    (s : Progress) : ∃ items, Takes g tokens i items s (g.drain tokens i fuel s) := by
  induction fuel generalizing s with
  | zero => exact ⟨[], .nil⟩
  | succ fuel ih =>
    rw [Grammar.drain]
    cases hpend : s.pending with
    | nil => exact ⟨[], .nil⟩
    | cons item rest =>
      obtain ⟨items, h⟩ := ih (g.take tokens i { s with pending := rest } item)
      exact ⟨item :: items, .cons hpend h⟩

theorem underway (h : ofProductions ps = .ok g) (hi : i ≤ word.length)
    (htakes : Takes g (g.tokenIds word) i items s t)
    (hs : Underway ps g.start word i taken s) :
    Underway ps g.start word i (taken ++ items) t := by
  induction htakes generalizing taken with
  | nil =>
    rw [List.append_nil]
    exact hs
  | cons hpend _ ih =>
    have hnext := ih (hs.take h hi hpend)
    rwa [List.append_assoc, List.singleton_append] at hnext

/-- Once none waits, the loop has led where taking enough items leads. -/
theorem eq_drain_of_pending {fuel : Nat} (h : Takes g tokens i items s t) (hend : t.pending = [])
    (hfuel : (g.drain tokens i fuel s).pending = []) : t = g.drain tokens i fuel s := by
  have hdrain := h.eq_drain
  rcases Nat.le_total items.length fuel with hle | hle
  · obtain ⟨m, rfl⟩ := Nat.exists_eq_add_of_le hle
    rw [Grammar.drain_add, ← hdrain, Grammar.drain_of_pending_eq_nil hend]
  · obtain ⟨m, hm⟩ := Nat.exists_eq_add_of_le hle
    rw [hdrain, hm, Grammar.drain_add, Grammar.drain_of_pending_eq_nil hfuel]

end Takes

namespace Grammar

/-! ## The course of a recognition -/

theorem comes_reached (h : ofProductions ps = .ok g) (hk : k ≤ word.length + 1) :
    Comes g word k (g.reached word k) := by
  induction k with
  | zero => exact .seed
  | succ k ih =>
    have hle : k ≤ word.length := Nat.le_of_succ_le_succ hk
    obtain ⟨items, htakes⟩ :=
      Takes.exists_drain g (g.tokenIds word) k (g.capacity k) (g.reached word k)
    rw [reached_succ]
    exact .turn (ih (Nat.le_of_succ_le hk)) htakes (pending_moment_capacity h hle)

/-- A position is come to in one way only. -/
theorem comes_iff (h : ofProductions ps = .ok g) (hk : k ≤ word.length + 1) :
    Comes g word k s ↔ s = g.reached word k := by
  constructor
  · intro hcomes
    induction hcomes with
    | seed => rfl
    | @turn i s t items _ htakes hend ih =>
      obtain rfl := ih (Nat.le_of_succ_le hk)
      have hle : i ≤ word.length := Nat.le_of_succ_le_succ hk
      have ht := htakes.eq_drain_of_pending hend (pending_moment_capacity h hle)
      rw [reached_succ, close, ← ht]
  · rintro rfl
    exact comes_reached h hk

/-- However far the loop of a position has come, it is at one of its moments. -/
theorem underway_of_takes (h : ofProductions ps = .ok g) (hi : i ≤ word.length)
    (htakes : Takes g (g.tokenIds word) i items (g.reached word i) t) :
    t = g.moment word i items.length ∧ Underway ps g.start word i items t :=
  ⟨htakes.eq_drain, htakes.underway h hi (underway_reached h word (Nat.le_succ_of_le hi))⟩

/-- The items taken and those that wait are the front of the finished cell. -/
theorem isPrefix_cell_of_takes (h : ofProductions ps = .ok g) (hi : i ≤ word.length)
    (htakes : Takes g (g.tokenIds word) i items (g.reached word i) t) :
    items ++ t.pending <+: ((g.chart word).cell i).toList := by
  obtain ⟨rfl, ht⟩ := underway_of_takes h hi htakes
  exact queue_moment_isPrefix h hi ht

/-- None waits exactly when the whole cell was taken. -/
theorem pending_eq_nil_iff_of_takes (h : ofProductions ps = .ok g) (hi : i ≤ word.length)
    (htakes : Takes g (g.tokenIds word) i items (g.reached word i) t) :
    t.pending = [] ↔ items = ((g.chart word).cell i).toList := by
  constructor
  · intro hend
    obtain ⟨rfl, ht⟩ := underway_of_takes h hi htakes
    have hqueue := ht.queue
    rw [hend, List.append_nil] at hqueue
    rw [← hqueue, ← cell_drain_moment h hi items.length, drain_of_pending_eq_nil hend]
  · intro hall
    have hlen := (isPrefix_cell_of_takes h hi htakes).length_le
    rw [List.length_append, ← hall] at hlen
    exact List.length_eq_zero_iff.1 (by omega)

/-- The loop of a position can be run to its end. -/
theorem exists_takes_cell (h : ofProductions ps = .ok g) (hi : i ≤ word.length) :
    ∃ t, Takes g (g.tokenIds word) i ((g.chart word).cell i).toList (g.reached word i) t ∧
      t.pending = [] := by
  obtain ⟨items, htakes⟩ :=
    Takes.exists_drain g (g.tokenIds word) i (g.capacity i) (g.reached word i)
  have hend := pending_moment_capacity h hi
  have hall := (pending_eq_nil_iff_of_takes h hi htakes).1 hend
  exact ⟨_, hall ▸ htakes, hend⟩

theorem capacity_eq (h : ofProductions ps = .ok g) (i : Nat) :
    g.capacity i = ps.length + (i + 1) * (ps.map fun q => q.rhs.length).sum := by
  rw [capacity, rhsTotal, productions_of_ofProductions_eq_ok h, List.length_flatMap]

theorem size_cell_le (h : ofProductions ps = .ok g) (word : List Symbol) (i : Nat) :
    ((g.chart word).cell i).size ≤ g.capacity i :=
  Grammar.length_le_capacity h ((underway_run h word).nodup i) ((underway_run h word).sound i)

/-! ## The number of nonterminals -/

theorem length_nonterminals (h : ofProductions ps = .ok g) :
    g.nonterminals.length = (ps.map Production.lhs).dedup.length := by
  obtain ⟨start, -, rfl⟩ := exists_eq_ofStart h
  have hnodup : (ofStart start ps).nonterminals.Nodup := Register.nodup_ofList _
  refine ((List.perm_ext_iff_of_nodup hnodup (List.nodup_dedup _)).2 fun b => ?_).length_eq
  rw [List.mem_dedup]
  exact Register.mem_ofList

theorem passes_nullable (h : ofProductions ps = .ok g) :
    ∃ n, NullTable.Passes g.rules.toList n (.blank g.nonterminals.length) g.nullable := by
  have hnull := nullable_eq h
  obtain ⟨start, -, rfl⟩ := exists_eq_ofStart h
  rw [hnull]
  exact ⟨_, NullTable.passes_saturate ..⟩

/-- Building a grammar and recognizing a word come to an end.  A null table is
made in at most one pass more than there are left-hand sides.  At each position
of a word the items taken are the front of the finished cell, none waits exactly
when they are all of it, and they are at most one for each production and one
for each symbol of a right-hand side and each position up to there. -/
theorem loops_end (p : Production) (ps : List Production) :
    ∃ g, ofProductions (p :: ps) = .ok g ∧
      (∃ n, NullTable.Passes g.rules.toList n (.blank g.nonterminals.length) g.nullable) ∧
      (∀ n t, NullTable.Passes g.rules.toList n (.blank g.nonterminals.length) t →
        t = g.nullable ∧ n ≤ ((p :: ps).map Production.lhs).dedup.length + 1) ∧
      ∀ word, Comes g word (word.length + 1) (g.run word) ∧
        ∀ i ≤ word.length,
          ((g.chart word).cell i).size ≤
            (p :: ps).length + (i + 1) * ((p :: ps).map fun q => q.rhs.length).sum ∧
          ∀ s, Comes g word i s →
            (∃ t, Takes g (g.tokenIds word) i ((g.chart word).cell i).toList s t ∧
              t.pending = []) ∧
            ∀ items t, Takes g (g.tokenIds word) i items s t →
              items <+: ((g.chart word).cell i).toList ∧
              (t.pending = [] ↔ items = ((g.chart word).cell i).toList) := by
  have h : ofProductions (p :: ps) = .ok (ofStart p.lhs (p :: ps)) := rfl
  refine ⟨_, h, passes_nullable h, fun n t hpasses => ⟨?_, ?_⟩,
    fun word => ⟨?_, fun i hi => ⟨?_, ?_⟩⟩⟩
  · obtain ⟨m, hnullable⟩ := passes_nullable h
    exact (hpasses.unique hnullable).2
  · have hle := hpasses.add_unknown_le
    rw [NullTable.unknown_blank, length_nonterminals h] at hle
    omega
  · rw [run_eq_reached]
    exact comes_reached h (Nat.le_refl _)
  · rw [← capacity_eq h]
    exact size_cell_le h word i
  · intro s hs
    obtain rfl := (comes_iff h (Nat.le_succ_of_le hi)).1 hs
    refine ⟨exists_takes_cell h hi, fun items t htakes => ⟨?_, ?_⟩⟩
    · exact (List.prefix_append items t.pending).trans (isPrefix_cell_of_takes h hi htakes)
    · exact pending_eq_nil_iff_of_takes h hi htakes

/-- `A -> A`, `A -> A A`, `A ->` and `A -> a`. -/
def selfReaching : List Production := [⟨"A", ["A"]⟩, ⟨"A", ["A", "A"]⟩, ⟨"A", []⟩, ⟨"A", ["a"]⟩]

/-- At the front of a word the first three productions lead to each other again
and again, and no more than seven items are ever taken. -/
theorem loops_end_selfReaching :
    Comes (ofStart "A" selfReaching) ["a"] 0 ((ofStart "A" selfReaching).seed 1) ∧
      (∃ t, Takes (ofStart "A" selfReaching) ((ofStart "A" selfReaching).tokenIds ["a"]) 0
        [⟨0, 0, 0⟩, ⟨1, 0, 0⟩, ⟨2, 0, 0⟩, ⟨3, 0, 0⟩, ⟨0, 1, 0⟩, ⟨1, 1, 0⟩, ⟨1, 2, 0⟩]
        ((ofStart "A" selfReaching).seed 1) t ∧ t.pending = []) ∧
      (∀ items t, Takes (ofStart "A" selfReaching) ((ofStart "A" selfReaching).tokenIds ["a"]) 0
        items ((ofStart "A" selfReaching).seed 1) t → items.length ≤ 7) ∧
      ∀ n t, NullTable.Passes (ofStart "A" selfReaching).rules.toList n (.blank 1) t → n ≤ 2 := by
  obtain ⟨g, hg, -, hpasses, hword⟩ := loops_end ⟨"A", ["A"]⟩ selfReaching.tail
  obtain rfl : ofStart "A" selfReaching = g := Except.ok.inj hg
  have hcomes : Comes (ofStart "A" selfReaching) ["a"] 0 ((ofStart "A" selfReaching).seed 1) :=
    .seed
  have hcell : (((ofStart "A" selfReaching).chart ["a"]).cell 0).toList =
      [⟨0, 0, 0⟩, ⟨1, 0, 0⟩, ⟨2, 0, 0⟩, ⟨3, 0, 0⟩, ⟨0, 1, 0⟩, ⟨1, 1, 0⟩, ⟨1, 2, 0⟩] := by
    decide +kernel
  obtain ⟨hend, hfront⟩ := ((hword ["a"]).2 0 (Nat.zero_le 1)).2 _ hcomes
  rw [hcell] at hend hfront
  refine ⟨hcomes, hend, fun items t htakes => (hfront items t htakes).1.length_le, ?_⟩
  exact fun n t h => (hpasses n t h).2

end Grammar

end ContextFree
