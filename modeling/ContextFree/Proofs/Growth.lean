import ContextFree.Proofs.Interning
import ContextFree.Proofs.Nullables

/-!
# Growing a grammar

Productions put behind those of a grammar can take a token away from it.  A
terminal with a production of its own is a nonterminal from then on, also where
it stood before, and no token any more.  Nothing else is lost
(`Grammar.recognition_of_append`).

*Symbols.*  What is numbered first keeps its place, so the old nonterminals come
first.  The old terminals come first too, without those that have become
nonterminals (`Grammar.terminals_isPrefix_append`).

*Words.*  Every derivation is still one.  So a nullable symbol stays nullable,
and a word stays in the language as long as its tokens are still terminals
(`InLanguage.append_iff`).
-/

namespace ContextFree

open Grammar (ofProductions)

variable {ps es : List Production} {g g' : Grammar} {start s : Symbol} {word : List Symbol}

theorem Register.isPrefix_ofList_append {α : Type} [DecidableEq α] (xs ys : List α) :
    (ofList xs).toList <+: (ofList (xs ++ ys)).toList := by
  rw [ofList_append]
  exact isPrefix_foldl_insert ys (ofList xs)

/-- A word of the language stays in it exactly when none of its tokens has got a
production. -/
theorem InLanguage.append_iff (h : InLanguage ps start word) :
    InLanguage (ps ++ es) start word ↔ ∀ token ∈ word, ¬ IsLhs es token := by
  obtain ⟨hterm, hderives⟩ := h
  constructor
  · intro h' token ht hlhs
    exact h'.1 token ht (isLhs_append.2 (.inr hlhs))
  · intro hnew
    refine ⟨fun token ht hlhs => ?_, hderives.mono fun p hp => List.mem_append_left es hp⟩
    cases isLhs_append.1 hlhs with
    | inl hold => exact hterm token ht hold
    | inr hlhs => exact hnew token ht hlhs

namespace Grammar

theorem nonterminals_isPrefix_append (h : ofProductions ps = .ok g)
    (h' : ofProductions (ps ++ es) = .ok g') : g.nonterminals <+: g'.nonterminals := by
  obtain ⟨start, -, rfl⟩ := exists_eq_ofStart h
  obtain ⟨start', -, rfl⟩ := exists_eq_ofStart h'
  have hlhs : (ps ++ es).map Production.lhs = ps.map Production.lhs ++ es.map Production.lhs :=
    List.map_append
  show (Register.ofList _).toList <+: (Register.ofList _).toList
  rw [hlhs]
  exact Register.isPrefix_ofList_append ..

/-- The terminals that are still terminals come first, in their old order. -/
theorem terminals_isPrefix_append (h : ofProductions ps = .ok g)
    (h' : ofProductions (ps ++ es) = .ok g') :
    g.terminals.filter (· ∉ es.map Production.lhs) <+: g'.terminals := by
  obtain ⟨start, -, rfl⟩ := exists_eq_ofStart h
  obtain ⟨start', -, rfl⟩ := exists_eq_ofStart h'
  -- A symbol is left out twice when it is left out as a left-hand side of either list.
  have hkeep : (ps.flatMap Production.rhs).filter
        (· ∉ Register.ofList ((ps ++ es).map Production.lhs)) =
      ((ps.flatMap Production.rhs).filter
        (· ∉ Register.ofList (ps.map Production.lhs))).filter
          (· ∉ es.map Production.lhs) := by
    rw [List.filter_filter]
    refine List.filter_congr fun s _ => ?_
    rw [Bool.eq_iff_iff]
    simp [and_comm]
  show (Register.ofList _).toList.filter _ <+: (Register.ofList _).toList
  rw [← Register.toList_ofList_filter, ← hkeep, List.flatMap_append, List.filter_append]
  exact Register.isPrefix_ofList_append ..

theorem isNullable_append (h : ofProductions ps = .ok g)
    (h' : ofProductions (ps ++ es) = .ok g') (hs : g.isNullable s = true) :
    g'.isNullable s = true := by
  have hsub : ∀ p ∈ ps, p ∈ ps ++ es := fun p hp => List.mem_append_left es hp
  obtain ⟨hlhs, hderives⟩ := (isNullable_iff_derives h).1 hs
  exact (isNullable_iff_derives h').2 ⟨hlhs.mono hsub, hderives.mono hsub⟩

theorem recognizes_append_iff (h : ofProductions ps = .ok g)
    (h' : ofProductions (ps ++ es) = .ok g') (hstart : g'.start = g.start)
    (hword : g.recognizes word = true) :
    g'.recognizes word = true ↔ ∀ token ∈ word, ¬ IsLhs es token := by
  rw [recognizes_iff h', hstart]
  exact ((recognizes_iff h).1 hword).append_iff

/-- When productions are put behind those of a grammar its nonterminals stay the
first ones, and so do its terminals, as far as they are still terminals.  What
was nullable stays nullable.  A word that was recognized still is exactly when
none of its tokens is a new left-hand side, and so the empty word always is. -/
theorem recognition_of_append (p : Production) (ps es : List Production) :
    ∃ g g', ofProductions (p :: ps) = .ok g ∧ ofProductions (p :: ps ++ es) = .ok g' ∧
      g.nonterminals <+: g'.nonterminals ∧
      g.terminals.filter (· ∉ es.map Production.lhs) <+: g'.terminals ∧
      (∀ s, g.isNullable s = true → g'.isNullable s = true) ∧
      (∀ word, g.recognizes word = true →
        (g'.recognizes word = true ↔ ∀ token ∈ word, ¬ IsLhs es token)) ∧
      (g.recognizes [] = true → g'.recognizes [] = true) := by
  have h : ofProductions (p :: ps) = .ok (ofStart p.lhs (p :: ps)) := rfl
  have h' : ofProductions (p :: ps ++ es) = .ok (ofStart p.lhs (p :: ps ++ es)) := rfl
  have hwords : ∀ word, (ofStart p.lhs (p :: ps)).recognizes word = true →
      ((ofStart p.lhs (p :: ps ++ es)).recognizes word = true ↔
        ∀ token ∈ word, ¬ IsLhs es token) :=
    fun word hword => recognizes_append_iff h h' rfl hword
  refine ⟨_, _, h, h', ?_, ?_, fun s hs => ?_, hwords, fun hempty => ?_⟩
  · exact nonterminals_isPrefix_append h h'
  · exact terminals_isPrefix_append h h'
  · exact isNullable_append h h' hs
  · exact (hwords [] hempty).2 fun token ht => (List.not_mem_nil ht).elim

/-- `S -> a S b`, `S ->` and `S -> c`. -/
def centred : List Production := [⟨"S", ["a", "S", "b"]⟩, ⟨"S", []⟩, ⟨"S", ["c"]⟩]

/-- With `b -> a` behind it `b` is no token any more.  The words without it
stay, and the terminals close up. -/
theorem recognition_of_append_centred :
    (ofStart "S" centred).recognizes ["a", "b"] = true ∧
      (ofStart "S" (centred ++ [⟨"b", ["a"]⟩])).recognizes ["a", "b"] = false ∧
      (ofStart "S" centred).recognizes ["c"] = true ∧
      (ofStart "S" (centred ++ [⟨"b", ["a"]⟩])).recognizes ["c"] = true ∧
      ["a", "c"] <+: (ofStart "S" (centred ++ [⟨"b", ["a"]⟩])).terminals := by
  obtain ⟨g, g', hg, hg', -, hterminals, -, hwords, -⟩ := recognition_of_append
    ⟨"S", ["a", "S", "b"]⟩ [⟨"S", []⟩, ⟨"S", ["c"]⟩] [⟨"b", ["a"]⟩]
  obtain rfl : ofStart "S" centred = g := Except.ok.inj hg
  obtain rfl : ofStart "S" (centred ++ [(⟨"b", ["a"]⟩ : Production)]) = g' := Except.ok.inj hg'
  have hab : (ofStart "S" centred).recognizes ["a", "b"] = true := by decide +kernel
  have hc : (ofStart "S" centred).recognizes ["c"] = true := by decide +kernel
  have hb : IsLhs [⟨"b", ["a"]⟩] "b" := ⟨_, List.mem_cons_self .., rfl⟩
  refine ⟨hab, Bool.eq_false_iff.2 fun hstill => ?_, hc, (hwords _ hc).2 ?_, hterminals⟩
  · exact (hwords _ hab).1 hstill "b" (by simp) hb
  · simp [IsLhs]

end Grammar

end ContextFree
