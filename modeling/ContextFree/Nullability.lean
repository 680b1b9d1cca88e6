import ContextFree.Vocabulary

/-!
# Nullability

A nonterminal is *nullable* when it derives the empty word.  That is the least
property with one rule: the left-hand side of a rule is nullable when its
right-hand side consists of nullable nonterminals, so in particular when the
right-hand side is empty.

A *null table* holds one flag for each nonterminal.  A *pass* goes through the
rules in their order and applies each to the table as the earlier ones left it.
Passes are repeated until one changes nothing.  A pass that changes the table
sets a flag that was not set (`unknown_pass_lt`), so there is at most one pass
more than there are nonterminals.
-/

namespace ContextFree

/-- One flag for each nonterminal: whether it is known to be nullable. -/
abbrev NullTable := Array Bool

namespace NullTable

/-- The table in which nothing is known of `n` nonterminals. -/
def blank (n : Nat) : NullTable := Array.replicate n false

/-- Whether a symbol is known to derive the empty word.  A terminal never does. -/
def vanishes (t : NullTable) : SymbolRef → Bool
  | .nonterm a => t.getD a.index false
  | .term _ => false

/-- Applies one rule: if all of its right-hand side vanishes, so does its
left-hand side. -/
def settle (t : NullTable) (r : Rule) : NullTable :=
  if r.rhs.all t.vanishes then t.setIfInBounds r.lhs.index true else t

/-- Applies every rule once, each to what the earlier ones left. -/
def pass (rules : List Rule) (t : NullTable) : NullTable := rules.foldl settle t

/-- The number of nonterminals not known to be nullable. -/
def unknown (t : NullTable) : Nat := t.count false

/-! ## A pass that changes the table makes progress -/

theorem unknown_settle_lt {t : NullTable} {r : Rule} (h : t.settle r ≠ t) :
    (t.settle r).unknown < t.unknown := by
  simp only [settle] at h ⊢
  split at h
  · rename_i hv
    rw [if_pos hv]
    by_cases hi : r.lhs.index < t.size
    · rw [Array.setIfInBounds, dif_pos hi] at h ⊢
      cases hf : t[r.lhs.index] with
      | true => exact absurd (by rw [← hf, Array.set_getElem_self]) h
      | false =>
        have hpos : 0 < t.count false :=
          Array.count_pos_iff.2 (hf ▸ Array.getElem_mem hi)
        rw [unknown, unknown, Array.count_set hi, hf, if_pos (beq_self_eq_true false),
          if_neg (by decide)]
        omega
    · exact absurd (Array.setIfInBounds_eq_of_size_le (Nat.le_of_not_lt hi)) h
  · exact absurd rfl h

theorem unknown_settle_le (t : NullTable) (r : Rule) : (t.settle r).unknown ≤ t.unknown := by
  by_cases h : t.settle r = t
  · exact Nat.le_of_eq (congrArg unknown h)
  · exact Nat.le_of_lt (unknown_settle_lt h)

theorem unknown_pass_le (rules : List Rule) (t : NullTable) :
    (t.pass rules).unknown ≤ t.unknown := by
  induction rules generalizing t with
  | nil => exact Nat.le_refl _
  | cons r rules ih => exact Nat.le_trans (ih _) (unknown_settle_le t r)

theorem unknown_pass_lt {rules : List Rule} {t : NullTable} (h : t.pass rules ≠ t) :
    (t.pass rules).unknown < t.unknown := by
  induction rules generalizing t with
  | nil => exact absurd rfl h
  | cons r rules ih =>
    by_cases hr : t.settle r = t
    · have hp : t.pass (r :: rules) = t.pass rules := by
        rw [pass, List.foldl_cons, hr, ← pass]
      rw [hp] at h ⊢
      exact ih h
    · exact Nat.lt_of_le_of_lt (unknown_pass_le rules _) (unknown_settle_lt hr)

/-! ## Saturation -/

/-- A table that no further pass changes, and how many passes it took. -/
structure Saturation where
  /-- The final table. -/
  table : NullTable
  /-- The number of passes, the last one included, which changed nothing. -/
  passes : Nat
deriving DecidableEq, Repr

/-- Repeats passes until one changes nothing. -/
def saturate (rules : List Rule) (t : NullTable) : Saturation :=
  let next := t.pass rules
  if next = t then ⟨t, 1⟩
  else
    let rest := saturate rules next
    ⟨rest.table, rest.passes + 1⟩
termination_by t.unknown
decreasing_by
  rename_i h
  exact unknown_pass_lt h

end NullTable

end ContextFree
