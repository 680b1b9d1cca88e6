import ContextFree.Production

/-!
# Derivations

The meaning of a list of productions.  A step replaces one occurrence of a
left-hand side by the right-hand side of the same production.  A list of
symbols *derives* another when steps lead from the one to the other, in any
number and at any places.

The *language* of a start symbol consists of the lists of terminals that it
derives.  A token is a terminal as long as it is no left-hand side, so a token
that the productions do not mention is one too, although no word of the language
has it.

Derivations compose (`Derives.trans`), also inside a context
(`Derives.append_left`, `Derives.append_right`), and next to each other
(`Derives.append`).  They stay derivations when there are more productions
(`Derives.mono`), while a word may stop being one of terminals.
-/

namespace ContextFree

/-- Steps lead from the first list of symbols to the second. -/
inductive Derives (ps : List Production) : List Symbol → List Symbol → Prop
  /-- No step. -/
  | refl (s : List Symbol) : Derives ps s s
  /-- One more step, with a production applied between `u` and `v`. -/
  | step {s : List Symbol} {p : Production} (u v : List Symbol) :
      Derives ps s (u ++ p.lhs :: v) → p ∈ ps → Derives ps s (u ++ p.rhs ++ v)

/-- Whether a symbol is a left-hand side. -/
def IsLhs (ps : List Production) (s : Symbol) : Prop := ∃ p ∈ ps, p.lhs = s

/-- The words of terminals that the start symbol derives. -/
def InLanguage (ps : List Production) (start : Symbol) (word : List Symbol) : Prop :=
  (∀ token ∈ word, ¬ IsLhs ps token) ∧ Derives ps [start] word

namespace Derives

variable {ps qs : List Production} {s t u v : List Symbol}

theorem of_mem {p : Production} (h : p ∈ ps) : Derives ps [p.lhs] p.rhs := by
  have hd : Derives ps [p.lhs] ([] ++ p.rhs ++ []) := .step [] [] (.refl _) h
  rwa [List.append_nil, List.nil_append] at hd

theorem trans (h₁ : Derives ps s t) (h₂ : Derives ps t u) : Derives ps s u := by
  induction h₂ with
  | refl => exact h₁
  | step a b _ hp ih => exact .step a b ih hp

theorem append_left (w : List Symbol) (h : Derives ps s t) : Derives ps (w ++ s) (w ++ t) := by
  induction h with
  | refl => exact .refl _
  | step a b _ hp ih =>
    rw [← List.append_assoc] at ih
    have hs := Derives.step (w ++ a) b ih hp
    rwa [List.append_assoc, List.append_assoc, ← List.append_assoc a] at hs

theorem append_right (w : List Symbol) (h : Derives ps s t) : Derives ps (s ++ w) (t ++ w) := by
  induction h with
  | refl => exact .refl _
  | step a b _ hp ih =>
    rw [List.append_assoc, List.cons_append] at ih
    have hs := Derives.step a (b ++ w) ih hp
    rwa [← List.append_assoc] at hs

theorem append (h₁ : Derives ps s t) (h₂ : Derives ps u v) : Derives ps (s ++ u) (t ++ v) :=
  (h₁.append_right u).trans (h₂.append_left t)

theorem mono (hsub : ∀ p ∈ ps, p ∈ qs) (h : Derives ps s t) : Derives qs s t := by
  induction h with
  | refl => exact .refl _
  | step u v _ hp ih => exact .step u v ih (hsub _ hp)

end Derives

theorem IsLhs.mono {ps qs : List Production} {b : Symbol} (hsub : ∀ p ∈ ps, p ∈ qs)
    (h : IsLhs ps b) : IsLhs qs b := by
  obtain ⟨p, hp, hlhs⟩ := h
  exact ⟨p, hsub p hp, hlhs⟩

/-- The left-hand sides of two lists together are those of either. -/
theorem isLhs_append {ps es : List Production} {b : Symbol} :
    IsLhs (ps ++ es) b ↔ IsLhs ps b ∨ IsLhs es b := by
  simp only [IsLhs, List.mem_append, or_and_right, exists_or]

end ContextFree
