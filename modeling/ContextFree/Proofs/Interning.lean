import Mathlib.Data.List.Induction
import ContextFree.Interning
import ContextFree.Proofs.Tables

/-!
# Symbols and their numbers

The numbers in the rules of a grammar stand for the symbols of its productions,
place by place, and two places have the same number exactly when they have the
same symbol (`Grammar.numbering_faithful`).

*Order.*  A register has its members in the order in which they first come
(`Register.pairwise_ofList`), also when others are left out on the way
(`Register.toList_ofList_filter`).  Left-hand sides and right-hand sides are
numbered in that order.

*One by one.*  The same numbers come about when each symbol is interned as it is
read.  For a table in which both forms agree (`InStep`), an action `Interns` some
symbols when it leaves the register of these behind and when what it returns is
found by looking in that register, or in any that has grown from it.  The second
part is what lets actions be put one behind the other
(`Interns.bind`, `Interns.mapM`): a number once handed out is not changed by
what is interned later.
-/

namespace ContextFree

open Grammar (ofProductions)

/-! ## Registers that grow -/

namespace Register

variable {α : Type} [DecidableEq α] {r r' : Register α} {x y : α}

/-- A member keeps its number while the register grows. -/
theorem idxOf_of_isPrefix (hgrow : r.toList <+: r'.toList) (hx : x ∈ r) :
    r'.idxOf x = r.idxOf x := by
  obtain ⟨more, hmore⟩ := hgrow
  rw [idxOf, ← hmore]
  exact List.idxOf_append_of_mem hx

theorem isPrefix_foldl_insert (xs : List α) (r : Register α) :
    r.toList <+: (xs.foldl insert r).toList := by
  induction xs generalizing r with
  | nil => exact List.prefix_rfl
  | cons x xs ih => exact (toList_isPrefix_insert r x).trans (ih (r.insert x))

theorem insert_of_mem (hx : x ∈ r) : r.insert x = r := if_pos hx

theorem idxOf_insert_self (hx : x ∉ r) : (r.insert x).idxOf x = r.size := by
  rw [idxOf, toList_insert_of_not_mem hx, List.idxOf_append_of_notMem hx, List.idxOf_cons_self,
    Nat.add_zero]
  rfl

/-- An insertion gives the next number to the symbol inserted and none to any
other. -/
theorem idxOf?_insert (hx : x ∉ r) (y : α) :
    (r.insert x).idxOf? y = if x = y then some r.size else r.idxOf? y := by
  by_cases hxy : x = y
  · subst hxy
    rw [if_pos rfl, idxOf?, if_pos (mem_insert.2 (.inr rfl)), idxOf_insert_self hx]
  · have hmem : y ∈ r.insert x ↔ y ∈ r := by
      rw [mem_insert]
      exact or_iff_left (Ne.symm hxy)
    rw [if_neg hxy, idxOf?, idxOf?]
    by_cases hy : y ∈ r
    · rw [if_pos hy, if_pos (hmem.2 hy), idxOf_of_isPrefix (toList_isPrefix_insert r x) hy]
    · rw [if_neg hy, if_neg fun h => hy (hmem.1 h)]

theorem ofList_append (xs ys : List α) : ofList (xs ++ ys) = ys.foldl insert (ofList xs) :=
  List.foldl_append

/-- The members stand in the order in which they first come. -/
theorem pairwise_ofList (xs : List α) :
    (ofList xs).toList.Pairwise fun x y => xs.idxOf x < xs.idxOf y := by
  induction xs using List.reverseRecOn with
  | nil => exact List.Pairwise.nil
  | append_singleton xs x ih =>
    have hmem : ∀ y ∈ (ofList xs).toList, y ∈ xs := fun y hy => mem_ofList.1 (mem_iff.2 hy)
    have hold : (ofList xs).toList.Pairwise fun a b =>
        (xs ++ [x]).idxOf a < (xs ++ [x]).idxOf b := by
      refine ih.imp_of_mem fun ha hb hlt => ?_
      rwa [List.idxOf_append_of_mem (hmem _ ha), List.idxOf_append_of_mem (hmem _ hb)]
    rw [ofList_append, List.foldl_cons, List.foldl_nil]
    by_cases hx : x ∈ ofList xs
    · rwa [toList_insert_of_mem hx]
    · have hnew : x ∉ xs := fun hxs => hx (mem_ofList.2 hxs)
      rw [toList_insert_of_not_mem hx, List.pairwise_append]
      refine ⟨hold, List.pairwise_singleton _ x, fun a ha b hb => ?_⟩
      obtain rfl := List.mem_singleton.1 hb
      rw [List.idxOf_append_of_mem (hmem a ha), List.idxOf_append_of_notMem hnew]
      have hlt : xs.idxOf a < xs.length := List.idxOf_lt_length_iff.2 (hmem a ha)
      omega

/-- Elements may be left out before or after, the members that stay have the same
order. -/
theorem toList_ofList_filter (keep : α → Bool) (xs : List α) :
    (ofList (xs.filter keep)).toList = (ofList xs).toList.filter keep := by
  induction xs using List.reverseRecOn with
  | nil => rfl
  | append_singleton xs x ih =>
    have hmem : x ∈ ofList (xs.filter keep) ↔ x ∈ ofList xs ∧ keep x = true := by simp
    rw [List.filter_append, ofList_append, ofList_append, List.foldl_cons, List.foldl_nil]
    cases hkeep : keep x with
    | true =>
      have hkept : [x].filter keep = [x] := by simp [hkeep]
      rw [hkept, List.foldl_cons, List.foldl_nil]
      by_cases hx : x ∈ ofList xs
      · rw [toList_insert_of_mem hx, toList_insert_of_mem (hmem.2 ⟨hx, hkeep⟩), ih]
      · rw [toList_insert_of_not_mem hx, toList_insert_of_not_mem fun hm => hx (hmem.1 hm).1,
          List.filter_append, ih, hkept]
    | false =>
      have hdropped : [x].filter keep = [] := by simp [hkeep]
      rw [hdropped, List.foldl_nil, ih]
      by_cases hx : x ∈ ofList xs
      · rw [toList_insert_of_mem hx]
      · rw [toList_insert_of_not_mem hx, List.filter_append, hdropped, List.append_nil]

end Register

/-! ## Symbol tables -/

/-- Both forms of a table say the same as a register. -/
structure InStep (t : SymbolTable) (r : Register Symbol) : Prop where
  names : t.names.toList = r.toList
  ids : ∀ s, t.find? s = r.idxOf? s

theorem InStep.empty : InStep {} ∅ := by
  refine ⟨rfl, fun s => ?_⟩
  show (∅ : Std.HashMap Symbol Nat)[s]? = none
  exact Std.HashMap.getElem?_empty

variable {β γ : Type} {t : SymbolTable} {r : Register Symbol} {s : Symbol}

/-- Run on a table in step with a register, the action leaves one in step with
the register after the symbols of `xs`.  What it returns is what `read` finds in
that register, and in any that grows from it. -/
def Interns (action : StateM SymbolTable β) (xs : List Symbol) (read : Register Symbol → β) :
    Prop :=
  ∀ t r, InStep t r → InStep (action.run t).2 (xs.foldl Register.insert r) ∧
    ∀ r', (xs.foldl Register.insert r).toList <+: r'.toList → (action.run t).1 = read r'

namespace Interns

variable {action : StateM SymbolTable β} {xs : List Symbol} {read : Register Symbol → β}

theorem pure (b : β) : Interns (Pure.pure b) [] fun _ => b :=
  fun _ _ ht => ⟨ht, fun _ _ => rfl⟩

theorem intern (s : Symbol) : Interns (SymbolTable.intern s) [s] fun r => r.idxOf s := by
  intro t r ht
  rw [List.foldl_cons, List.foldl_nil]
  by_cases hs : s ∈ r
  · have hfind : t.find? s = some (r.idxOf s) := by rw [ht.ids, Register.idxOf?, if_pos hs]
    rw [SymbolTable.run_intern_of_eq_some hfind, Register.insert_of_mem hs]
    exact ⟨ht, fun r' hgrow => (Register.idxOf_of_isPrefix hgrow hs).symm⟩
  · have hfind : t.find? s = none := by rw [ht.ids, Register.idxOf?, if_neg hs]
    have hsize : t.names.size = r.size := by
      rw [← Array.length_toList, ht.names]
      rfl
    rw [SymbolTable.run_intern_of_eq_none hfind, hsize]
    refine ⟨⟨?_, fun a => ?_⟩, fun r' hgrow => ?_⟩
    · rw [Array.toList_push, ht.names, Register.toList_insert_of_not_mem hs]
    · rw [Register.idxOf?_insert hs, ← ht.ids, SymbolTable.find?, SymbolTable.find?,
        Std.HashMap.getElem?_insert]
      simp
    · have hself : s ∈ r.insert s := Register.mem_insert.2 (.inr rfl)
      show r.size = r'.idxOf s
      rw [Register.idxOf_of_isPrefix hgrow hself, Register.idxOf_insert_self hs]

/-- One action behind another interns the symbols of both.  The number that the
first returns is still right when the second is done. -/
theorem bind {next : β → StateM SymbolTable γ} {ys : List Symbol}
    {readNext : β → Register Symbol → γ} (h : Interns action xs read)
    (hnext : ∀ b, Interns (next b) ys (readNext b)) :
    Interns (action >>= next) (xs ++ ys) fun r => readNext (read r) r := by
  intro t r ht
  obtain ⟨hstep, hread⟩ := h t r ht
  obtain ⟨hstep', hread'⟩ := hnext (action.run t).1 _ _ hstep
  rw [List.foldl_append]
  refine ⟨hstep', fun r' hgrow => ?_⟩
  show _ = readNext (read r') r'
  rw [← hread r' ((Register.isPrefix_foldl_insert ys _).trans hgrow)]
  exact hread' r' hgrow

theorem map (f : β → γ) (h : Interns action xs read) :
    Interns (f <$> action) xs fun r => f (read r) := by
  rw [map_eq_pure_bind, ← List.append_nil xs]
  exact h.bind fun b => pure (f b)

/-- To go through a list is to intern the symbols of each of its elements. -/
theorem mapM {α : Type} {f : α → StateM SymbolTable β} {xs : α → List Symbol}
    {read : α → Register Symbol → β} (l : List α) (h : ∀ a, Interns (f a) (xs a) (read a)) :
    Interns (l.mapM f) (l.flatMap xs) fun r => l.map fun a => read a r := by
  induction l with
  | nil => exact pure []
  | cons a l ih =>
    rw [List.mapM_cons, List.flatMap_cons]
    exact (h a).bind fun b => ih.map (b :: ·)

theorem internLhs (p : Production) :
    Interns (SymbolTable.internLhs p) [p.lhs] fun r => ⟨r.idxOf p.lhs⟩ :=
  (intern p.lhs).map NontermId.mk

/-- On the right only what is no left-hand side is interned. -/
theorem internRef {nonterminals : Register Symbol} (ht : InStep t nonterminals) (s : Symbol) :
    Interns (SymbolTable.internRef t s) ([s].filter (· ∉ nonterminals)) fun r =>
      (Vocabulary.mk nonterminals r).ref s := by
  have hfind : t.find? s = nonterminals.idxOf? s := ht.ids s
  rw [SymbolTable.internRef, hfind, Register.idxOf?, List.filter_singleton]
  by_cases hs : s ∈ nonterminals
  · simp only [hs, if_true, not_true, decide_false, Vocabulary.ref]
    exact pure _
  · simp only [hs, if_false, not_false_iff, decide_true, Vocabulary.ref]
    exact (intern s).map fun id => SymbolRef.term ⟨id⟩

theorem internRhs {nonterminals : Register Symbol} (ht : InStep t nonterminals) (p : Production) :
    Interns (SymbolTable.internRhs t p) (p.rhs.filter (· ∉ nonterminals)) fun r =>
      p.rhs.map (Vocabulary.mk nonterminals r).ref := by
  have hsymbols : p.rhs.filter (· ∉ nonterminals) =
      p.rhs.flatMap fun s => [s].filter (· ∉ nonterminals) := by
    rw [← List.filter_flatMap, List.flatMap_singleton']
  rw [hsymbols]
  exact mapM p.rhs fun s => internRef ht s

end Interns

/-- The tables and numbers of a numbering are those of the vocabulary, which has
all symbols before it numbers one. -/
theorem Numbering.ofProductions_eq (ps : List Production) :
    InStep (Numbering.ofProductions ps).nonterminals (Vocabulary.ofProductions ps).nonterminals ∧
      InStep (Numbering.ofProductions ps).terminals (Vocabulary.ofProductions ps).terminals ∧
      (Numbering.ofProductions ps).lhs =
        ps.map (fun p => (Vocabulary.ofProductions ps).nonterm p.lhs) ∧
      (Numbering.ofProductions ps).rhs =
        ps.map (fun p => p.rhs.map (Vocabulary.ofProductions ps).ref) := by
  obtain ⟨hnonterminals, hlhs⟩ :=
    Interns.mapM ps Interns.internLhs {} ∅ InStep.empty
  rw [← List.map_eq_flatMap] at hnonterminals hlhs
  obtain ⟨hterminals, hrhs⟩ :=
    Interns.mapM ps (Interns.internRhs hnonterminals) {} ∅ InStep.empty
  rw [← List.filter_flatMap] at hterminals hrhs
  exact ⟨hnonterminals, hterminals, hlhs _ List.prefix_rfl, hrhs _ List.prefix_rfl⟩

/-! ## Places of symbols -/

/-- The members of `l` are elements of `xs`, none of them twice, in the order in
which they first come there. -/
structure FirstComing (xs l : List Symbol) : Prop where
  mem : ∀ s ∈ l, s ∈ xs
  nodup : l.Nodup
  ordered : l.Pairwise fun s t => xs.idxOf s < xs.idxOf t

/-- The symbol at a place of a production.  The left-hand side is at place `0`,
and the right-hand side follows. -/
def symbolAt? (ps : List Production) (n d : Nat) : Option Symbol :=
  ps[n]?.bind fun p => (p.lhs :: p.rhs)[d]?

/-- The reference at the same place of its rule. -/
def Grammar.refAt? (g : Grammar) (n d : Nat) : Option SymbolRef :=
  g.rules[n]?.bind fun r => (.nonterm r.lhs :: r.rhs)[d]?

/-- The tables and rules of a grammar tell what its productions are. -/
structure Grammar.NumbersFaithfully (g : Grammar) (ps : List Production) : Prop where
  nonterminals : FirstComing (ps.map Production.lhs) g.nonterminals
  mem_nonterminals : ∀ s, s ∈ g.nonterminals ↔ IsLhs ps s
  terminals : FirstComing (ps.flatMap Production.rhs) g.terminals
  /-- A terminal is no left-hand side of any production, earlier or later. -/
  mem_terminals : ∀ s, s ∈ g.terminals ↔ (∃ p ∈ ps, s ∈ p.rhs) ∧ ¬ IsLhs ps s
  isNonterminal : ∀ s, g.isNonterminal s = true ↔ IsLhs ps s
  isTerminal : ∀ s, g.isTerminal s = true ↔ (∃ p ∈ ps, s ∈ p.rhs) ∧ ¬ IsLhs ps s
  not_both : ∀ s, ¬ (g.isNonterminal s = true ∧ g.isTerminal s = true)
  /-- There is a rule for each production, and no other.  Its right-hand side is
  as long. -/
  lengths : ∀ n : Nat, g.rules[n]?.map (·.rhs.length) = ps[n]?.map (·.rhs.length)
  /-- The number on the left of a rule is that of the left-hand side. -/
  lhs : ∀ (n : Nat) (p : Production), ps[n]? = some p →
    ∃ r, g.rules[n]? = some r ∧ g.nonterminals[r.lhs.index]? = some p.lhs
  /-- Each reference stands for the symbol in its place, on the side on which the
  symbol counts. -/
  places : ∀ n d s, symbolAt? ps n d = some s →
    ∃ a, g.refAt? n d = some a ∧ g.vocabulary.symbol? a = some s ∧
      ((∃ b, a = .nonterm b) ↔ IsLhs ps s)
  /-- At two places stands the same reference exactly when the same symbol
  does. -/
  same : ∀ n d s m e t, symbolAt? ps n d = some s → symbolAt? ps m e = some t →
    (g.refAt? n d = g.refAt? m e ↔ s = t)

/-- Numbers handed out one by one are those of the grammar, in both forms of the
tables and in all rules. -/
structure Numbering.Agrees (c : Numbering) (g : Grammar) : Prop where
  nonterminals : c.nonterminals.names.toList = g.nonterminals
  terminals : c.terminals.names.toList = g.terminals
  nonterm? : ∀ s, (c.nonterminals.find? s).map NontermId.mk = g.vocabulary.nonterm? s
  term? : ∀ s, (c.terminals.find? s).map TermId.mk = g.vocabulary.term? s
  lhs : c.lhs = g.rules.toList.map Rule.lhs
  rhs : c.rhs = g.rules.toList.map Rule.rhs

namespace Grammar

variable {ps : List Production} {g : Grammar} {n d : Nat}

theorem firstComing_nonterminals (h : ofProductions ps = .ok g) :
    FirstComing (ps.map Production.lhs) g.nonterminals := by
  obtain ⟨start, -, rfl⟩ := exists_eq_ofStart h
  refine ⟨fun s hs => Register.mem_ofList.1 hs, Register.nodup_ofList _, ?_⟩
  exact Register.pairwise_ofList (ps.map Production.lhs)

theorem firstComing_terminals (h : ofProductions ps = .ok g) :
    FirstComing (ps.flatMap Production.rhs) g.terminals := by
  obtain ⟨start, -, rfl⟩ := exists_eq_ofStart h
  refine ⟨fun s hs => (List.mem_filter.1 (Register.mem_ofList.1 hs)).1, Register.nodup_ofList _, ?_⟩
  show (Register.ofList ((ps.flatMap Production.rhs).filter _)).toList.Pairwise _
  rw [Register.toList_ofList_filter]
  exact (Register.pairwise_ofList (ps.flatMap Production.rhs)).filter _

/-- A reference is that of the symbol in its place. -/
theorem refAt?_eq (h : ofProductions ps = .ok g) (n d : Nat) :
    g.refAt? n d = (symbolAt? ps n d).map g.vocabulary.ref := by
  rw [refAt?, symbolAt?, rules_getElem? h]
  cases hp : ps[n]? with
  | none => rfl
  | some p =>
    have hlhs : IsLhs ps p.lhs := ⟨p, List.mem_of_getElem? hp, rfl⟩
    show (SymbolRef.nonterm (g.vocabulary.nonterm p.lhs) :: p.rhs.map g.vocabulary.ref)[d]? =
      (p.lhs :: p.rhs)[d]?.map g.vocabulary.ref
    rw [← List.getElem?_map, List.map_cons, ref_of_isLhs h hlhs]

/-- Every symbol of a production is on one side of the vocabulary. -/
theorem symbol?_ref_of_symbolAt? (h : ofProductions ps = .ok g) (hs : symbolAt? ps n d = some s) :
    g.vocabulary.symbol? (g.vocabulary.ref s) = some s := by
  obtain ⟨p, hp, hs⟩ := Option.bind_eq_some_iff.1 hs
  have hmem : p ∈ ps := List.mem_of_getElem? hp
  refine Vocabulary.symbol?_ref ?_
  rw [mem_nonterminals h, mem_terminals h]
  by_cases hlhs : IsLhs ps s
  · exact .inl hlhs
  · refine .inr ⟨⟨p, hmem, ?_⟩, hlhs⟩
    cases List.mem_of_getElem? hs with
    | head => exact absurd ⟨p, hmem, rfl⟩ hlhs
    | tail _ hrhs => exact hrhs

theorem exists_ref_eq_nonterm_iff (h : ofProductions ps = .ok g) :
    (∃ b, g.vocabulary.ref s = .nonterm b) ↔ IsLhs ps s := by
  by_cases hlhs : IsLhs ps s
  · rw [ref_of_isLhs h hlhs]
    exact ⟨fun _ => hlhs, fun _ => ⟨_, rfl⟩⟩
  · rw [ref_of_not_isLhs h hlhs]
    constructor
    · rintro ⟨b, hb⟩
      cases hb
    · intro hs
      exact absurd hs hlhs

theorem numbersFaithfully (h : ofProductions ps = .ok g) : g.NumbersFaithfully ps where
  nonterminals := firstComing_nonterminals h
  mem_nonterminals _ := mem_nonterminals h
  terminals := firstComing_terminals h
  mem_terminals _ := mem_terminals h
  isNonterminal s := by rw [isNonterminal, decide_eq_true_iff, mem_nonterminals h]
  isTerminal s := by rw [isTerminal, decide_eq_true_iff, mem_terminals h]
  not_both s := by
    rw [isNonterminal, isTerminal, decide_eq_true_iff, decide_eq_true_iff, mem_nonterminals h,
      mem_terminals h]
    rintro ⟨hlhs, -, hterm⟩
    exact hterm hlhs
  lengths n := by
    rw [rules_getElem? h, Option.map_map]
    refine congrArg (fun f => ps[n]?.map f) (funext fun p => ?_)
    exact List.length_map ..
  lhs n p hp := by
    have hlhs : IsLhs ps p.lhs := ⟨p, List.mem_of_getElem? hp, rfl⟩
    refine ⟨g.vocabulary.rule p, by rw [rules_getElem? h, hp]; rfl, ?_⟩
    exact Register.get?_idxOf ((mem_nonterminals h).2 hlhs)
  places n d s hs := by
    refine ⟨g.vocabulary.ref s, by rw [refAt?_eq h, hs]; rfl, ?_, exists_ref_eq_nonterm_iff h⟩
    exact symbol?_ref_of_symbolAt? h hs
  same n d s m e t hs ht := by
    rw [refAt?_eq h, refAt?_eq h, hs, ht, Option.map_some, Option.map_some, Option.some.injEq]
    refine ⟨fun href => ?_, fun hst => hst ▸ rfl⟩
    have hsymbol := symbol?_ref_of_symbolAt? h hs
    rw [href, symbol?_ref_of_symbolAt? h ht] at hsymbol
    exact (Option.some.inj hsymbol).symm

theorem numbering_agrees (h : ofProductions ps = .ok g) :
    (Numbering.ofProductions ps).Agrees g := by
  obtain ⟨hnonterminals, hterminals, hlhs, hrhs⟩ := Numbering.ofProductions_eq ps
  obtain ⟨start, -, rfl⟩ := exists_eq_ofStart h
  have hrules : (ofStart start ps).rules.toList = ps.map (Vocabulary.ofProductions ps).rule := rfl
  refine ⟨hnonterminals.names, hterminals.names, fun s => ?_, fun s => ?_, ?_, ?_⟩
  · rw [hnonterminals.ids]
    rfl
  · rw [hterminals.ids]
    rfl
  · rw [hlhs, hrules, List.map_map]
    rfl
  · rw [hrhs, hrules, List.map_map]
    rfl

/-- The tables of a grammar list the left-hand sides and the other symbols of its
productions as these first come, and the rules are the productions place by
place, with the same number for the same symbol and for no other.  All of it is
as if each symbol had been interned when it was read. -/
theorem numbering_faithful (p : Production) (ps : List Production) :
    ∃ g, ofProductions (p :: ps) = .ok g ∧ g.NumbersFaithfully (p :: ps) ∧
      (Numbering.ofProductions (p :: ps)).Agrees g := by
  have h : ofProductions (p :: ps) = .ok (ofStart p.lhs (p :: ps)) := rfl
  exact ⟨_, h, numbersFaithfully h, numbering_agrees h⟩

/-- `S -> A b` and `A -> b S`. -/
def lateLhs : List Production := [⟨"S", ["A", "b"]⟩, ⟨"A", ["b", "S"]⟩]

/-- `A` is a nonterminal where it is first met, before it is a left-hand side. -/
theorem numbering_faithful_lateLhs :
    symbolAt? lateLhs 0 1 = some "A" ∧ symbolAt? lateLhs 1 0 = some "A" ∧
      symbolAt? lateLhs 1 1 = some "b" ∧
      (ofStart "S" lateLhs).refAt? 0 1 = (ofStart "S" lateLhs).refAt? 1 0 ∧
      (ofStart "S" lateLhs).refAt? 0 1 ≠ (ofStart "S" lateLhs).refAt? 1 1 := by
  obtain ⟨g, hg, hfaithful, -⟩ := numbering_faithful ⟨"S", ["A", "b"]⟩ [⟨"A", ["b", "S"]⟩]
  obtain rfl : ofStart "S" lateLhs = g := Except.ok.inj hg
  refine ⟨rfl, rfl, rfl, (hfaithful.same 0 1 "A" 1 0 "A" rfl rfl).2 rfl, fun heq => ?_⟩
  exact absurd ((hfaithful.same 0 1 "A" 1 1 "b" rfl rfl).1 heq) (by decide)

end Grammar

end ContextFree
