import ContextFree.Grammar.Derivation

/-!
# Yields

A list of symbols *yields* a word when each of its symbols is either a token of
the word and a terminal, or is replaced by the right-hand side of one of its
productions, which yields in turn.  Here the symbols of a list are independent
of each other, while a derivation rewrites a list as a whole and in any order.

For words of terminals the two notions agree (`yields_iff_derives`).  From left
to right a yield is read off as a derivation.  From right to left the last step
of a derivation is undone in the yield of what it leads to
(`Yields.of_replaced`), which takes that a yield of an append splits
(`Yields.of_append`).
-/

namespace ContextFree

/-- The symbols yield the word, each symbol a piece of it. -/
inductive Yields (ps : List Production) : List Symbol → List Symbol → Prop
  /-- Nothing yields the empty word. -/
  | nil : Yields ps [] []
  /-- A terminal yields itself. -/
  | term {token : Symbol} {s w : List Symbol} :
      ¬ IsLhs ps token → Yields ps s w → Yields ps (token :: s) (token :: w)
  /-- A nonterminal yields what one of its right-hand sides does. -/
  | nonterm {p : Production} {s v w : List Symbol} :
      p ∈ ps → Yields ps p.rhs v → Yields ps s w → Yields ps (p.lhs :: s) (v ++ w)

namespace Yields

variable {ps : List Production} {s t v w : List Symbol} {b : Symbol}

theorem not_isLhs (h : Yields ps s w) : ∀ token ∈ w, ¬ IsLhs ps token := by
  induction h with
  | nil => intro token ht; cases ht
  | term hterm _ ih =>
    intro token ht
    cases ht with
    | head => exact hterm
    | tail _ ht => exact ih token ht
  | nonterm _ _ _ ihv ihw =>
    intro token ht
    cases List.mem_append.1 ht with
    | inl hv => exact ihv token hv
    | inr hw => exact ihw token hw

theorem derives (h : Yields ps s w) : Derives ps s w := by
  induction h with
  | nil => exact .refl []
  | @term token s w _ _ ih => exact ih.append_left [token]
  | @nonterm p s v w hp _ _ ihv ihw =>
    have hd : Derives ps [p.lhs] v := (Derives.of_mem hp).trans ihv
    exact hd.append ihw

/-- A word of terminals yields itself. -/
theorem of_not_isLhs (h : ∀ token ∈ w, ¬ IsLhs ps token) : Yields ps w w := by
  induction w with
  | nil => exact .nil
  | cons token w ih =>
    refine .term (h token (List.mem_cons_self ..)) (ih fun a ha => ?_)
    exact h a (List.mem_cons_of_mem _ ha)

theorem append (hs : Yields ps s v) (ht : Yields ps t w) : Yields ps (s ++ t) (v ++ w) := by
  induction hs with
  | nil => exact ht
  | term hterm _ ih => exact .term hterm ih
  | nonterm hp hr _ _ ih =>
    rw [List.append_assoc]
    exact .nonterm hp hr ih

/-- Two parts of a list yield two parts of the word. -/
theorem of_append (h : Yields ps (s ++ t) w) :
    ∃ u v, w = u ++ v ∧ Yields ps s u ∧ Yields ps t v := by
  induction s generalizing w with
  | nil => exact ⟨[], w, rfl, .nil, h⟩
  | cons a s ih =>
    rw [List.cons_append] at h
    cases h with
    | term hterm h =>
      obtain ⟨u, v, rfl, hu, hv⟩ := ih h
      exact ⟨a :: u, v, rfl, .term hterm hu, hv⟩
    | @nonterm p _ r _ hp hr h =>
      obtain ⟨u, v, rfl, hu, hv⟩ := ih h
      exact ⟨r ++ u, v, (List.append_assoc ..).symm, .nonterm hp hr hu, hv⟩

/-- A yield of a right-hand side in its place is a yield of the left-hand side
there. -/
theorem of_replaced {p : Production} (hp : p ∈ ps) (h : Yields ps (s ++ p.rhs ++ t) w) :
    Yields ps (s ++ p.lhs :: t) w := by
  obtain ⟨uv, x, rfl, huv, hx⟩ := of_append h
  obtain ⟨u, v, rfl, hu, hv⟩ := of_append huv
  rw [List.append_assoc]
  exact hu.append (.nonterm hp hv hx)

theorem of_derives (hd : Derives ps s t) (h : Yields ps t w) : Yields ps s w := by
  induction hd with
  | refl => exact h
  | step u v _ hp ih => exact ih (of_replaced hp h)

/-- A nonterminal yields what one of its right-hand sides does. -/
theorem exists_of_isLhs (h : Yields ps [b] w) (hb : IsLhs ps b) :
    ∃ p ∈ ps, p.lhs = b ∧ Yields ps p.rhs w := by
  cases h with
  | term hterm => exact absurd hb hterm
  | nonterm hp hr hnil =>
    cases hnil
    rw [List.append_nil]
    exact ⟨_, hp, rfl, hr⟩

/-- Only a nonterminal yields the empty word. -/
theorem isLhs_of_nil (h : Yields ps [b] []) : IsLhs ps b := by
  generalize hw : ([] : List Symbol) = w at h
  cases h with
  | term => exact absurd hw (List.cons_ne_nil _ _).symm
  | nonterm hp => exact ⟨_, hp, rfl⟩

/-- Symbols that yield the empty word one by one do so together. -/
theorem nil_of_forall (h : ∀ b ∈ s, Yields ps [b] []) : Yields ps s [] := by
  induction s with
  | nil => exact .nil
  | cons b s ih =>
    have hs : Yields ps s [] := ih fun a ha => h a (List.mem_cons_of_mem _ ha)
    exact (h b (List.mem_cons_self ..)).append hs

end Yields

variable {ps : List Production} {s w : List Symbol}

/-- For words of terminals, to yield is to derive. -/
theorem yields_iff_derives :
    Yields ps s w ↔ (∀ token ∈ w, ¬ IsLhs ps token) ∧ Derives ps s w :=
  ⟨fun h => ⟨h.not_isLhs, h.derives⟩, fun h => .of_derives h.2 (.of_not_isLhs h.1)⟩

theorem inLanguage_iff_yields {start : Symbol} : InLanguage ps start w ↔ Yields ps [start] w :=
  yields_iff_derives.symm

end ContextFree
