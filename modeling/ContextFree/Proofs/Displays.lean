import Mathlib.Data.List.Nodup
import ContextFree.Proofs.Traces

/-!
# Displays tell items apart

A display is a list of words with a space between neighbours, and nothing in it is
quoted.  Still it can be read back, if no symbol holds a space and none is the
bullet, whatever else the symbols look like (`Grammar.display?_eq_iff`).

*Words.*  As no word holds a space, the text falls into its words at the spaces
(`Symbol.spaced_inj`).  A word may be empty, and then two spaces meet.

*Places.*  The first word is the left-hand side, the second the arrow and the last
the origin, so these are known by where they stand and not by how they look.

*The bullet.*  What is left is the right-hand side with a bullet in it.  There is
one bullet only, so it parts what is matched from what is not
(`Production.marked_inj`).

So two items of a cell that are displayed alike differ at most in the number of
their production, and only if it is listed twice.
-/

namespace ContextFree

open Grammar (ofProductions)

/-! ## Words -/

namespace Symbol

variable {l m : List Symbol}

theorem splitOn_toList_spaced (hl : l ≠ []) (hspace : ∀ s ∈ l, ' ' ∉ s.toList) :
    (spaced l).toList.splitOn ' ' = l.map String.toList := by
  have hwords : ∀ w ∈ l.map String.toList, ' ' ∉ w := by
    intro w hw
    obtain ⟨s, hs, rfl⟩ := List.mem_map.1 hw
    exact hspace s hs
  rw [spaced, String.toList_intercalate]
  exact List.splitOn_intercalate ' ' hwords (by simpa using hl)

/-- Words without a space are told apart by what is written.  No word at all is
written as one empty word is. -/
theorem spaced_inj (hl : l ≠ []) (hm : m ≠ []) (hl' : ∀ s ∈ l, ' ' ∉ s.toList)
    (hm' : ∀ s ∈ m, ' ' ∉ s.toList) : spaced l = spaced m ↔ l = m := by
  refine ⟨fun h => ?_, fun h => h ▸ rfl⟩
  have hsplit := splitOn_toList_spaced hl hl'
  rw [h, splitOn_toList_spaced hm hm'] at hsplit
  exact (List.map_injective_iff.2 (fun s t => String.toList_inj.1) hsplit).symm

end Symbol

theorem space_not_mem_toString (n : Nat) : ' ' ∉ (toString n).toList := by
  intro h
  rw [Nat.toString_eq_repr, Nat.toList_repr] at h
  have hdigit := Nat.isDigit_of_mem_toDigits (by decide) (by decide) h
  exact absurd hdigit (by decide)

/-- A number is read back from its digits. -/
theorem ofDigitChars_toString (n : Nat) : Nat.ofDigitChars 10 (toString n).toList 0 = n := by
  rw [Nat.toString_eq_repr, Nat.toList_repr,
    Nat.ofDigitChars_toDigits (by decide) (Nat.le_refl 10)]

/-! ## Productions -/

namespace Production

variable {p q : Production} {d e k m : Nat}

/-- No symbol holds a space, and none is the bullet. -/
def Plain (p : Production) : Prop := ∀ s ∈ p.lhs :: p.rhs, ' ' ∉ s.toList ∧ s ≠ "•"

instance (p : Production) : Decidable p.Plain :=
  inferInstanceAs (Decidable (∀ s ∈ p.lhs :: p.rhs, ' ' ∉ s.toList ∧ s ≠ "•"))

theorem Plain.bullet_not_mem (h : p.Plain) : "•" ∉ p.rhs :=
  fun hm => (h "•" (List.mem_cons_of_mem _ hm)).2 rfl

/-- The bullet shows where it stands. -/
theorem marked_inj (hp : "•" ∉ p.rhs) (hd : d ≤ p.rhs.length) (he : e ≤ q.rhs.length) :
    p.marked d = q.marked e ↔ p.rhs = q.rhs ∧ d = e := by
  constructor
  · intro h
    rw [marked_of_le hd, marked_of_le he, List.append_cons_inj_of_notMem
      (fun hm => hp (List.mem_of_mem_take hm)) (fun hm => hp (List.mem_of_mem_drop hm))] at h
    obtain ⟨hfront, -, hback⟩ := h
    refine ⟨?_, ?_⟩
    · rw [← List.take_append_drop d p.rhs, hfront, hback, List.take_append_drop]
    · have hlen := congrArg List.length hfront
      rwa [List.length_take_of_le hd, List.length_take_of_le he] at hlen
  · rintro ⟨hrhs, rfl⟩
    rw [marked, marked, hrhs]

/-- The words of a display. -/
def displayWords (p : Production) (dot origin : Nat) : List Symbol :=
  p.lhs :: "->" :: (p.marked dot ++ ["@" ++ toString origin])

theorem displayAt_eq (p : Production) (dot origin : Nat) :
    p.displayAt dot origin = Symbol.spaced (p.displayWords dot origin) := rfl

theorem displayWords_ne_nil : p.displayWords d k ≠ [] := List.cons_ne_nil _ _

theorem Plain.space_not_mem (h : p.Plain) (hd : d ≤ p.rhs.length) :
    ∀ s ∈ p.displayWords d k, ' ' ∉ s.toList := by
  intro s hs
  rw [displayWords, marked_of_le hd] at hs
  simp only [List.mem_cons, List.mem_append, List.not_mem_nil, or_false] at hs
  have hrhs : ∀ s ∈ p.rhs, ' ' ∉ s.toList := fun s hs => (h s (List.mem_cons_of_mem _ hs)).1
  rcases hs with rfl | rfl | (hfront | rfl | hback) | rfl
  · exact (h _ (List.mem_cons_self ..)).1
  · decide
  · exact hrhs s (List.mem_of_mem_take hfront)
  · decide
  · exact hrhs s (List.mem_of_mem_drop hback)
  · rw [String.toList_append, List.mem_append, not_or]
    exact ⟨by decide, space_not_mem_toString k⟩

theorem displayWords_inj (hp : "•" ∉ p.rhs) (hd : d ≤ p.rhs.length) (he : e ≤ q.rhs.length) :
    p.displayWords d k = q.displayWords e m ↔
      p.lhs = q.lhs ∧ p.rhs = q.rhs ∧ d = e ∧ k = m := by
  constructor
  · intro h
    obtain ⟨hlhs, hrest⟩ := List.cons.inj h
    obtain ⟨hmarked, horigin⟩ := List.append_inj' (List.cons.inj hrest).2 rfl
    obtain ⟨hrhs, hdot⟩ := (marked_inj hp hd he).1 hmarked
    have hdigits : toString k = toString m :=
      (String.append_right_inj "@").1 (List.cons.inj horigin).1
    refine ⟨hlhs, hrhs, hdot, ?_⟩
    rw [← ofDigitChars_toString k, hdigits, ofDigitChars_toString]
  · rintro ⟨hlhs, hrhs, rfl, rfl⟩
    rw [displayWords, displayWords, marked, marked, hlhs, hrhs]

/-- A display shows the production, the dot and the origin. -/
theorem displayAt_inj (hp : p.Plain) (hq : q.Plain) (hd : d ≤ p.rhs.length)
    (he : e ≤ q.rhs.length) :
    p.displayAt d k = q.displayAt e m ↔ p.lhs = q.lhs ∧ p.rhs = q.rhs ∧ d = e ∧ k = m := by
  rw [displayAt_eq, displayAt_eq, Symbol.spaced_inj displayWords_ne_nil displayWords_ne_nil
    (hp.space_not_mem hd) (hq.space_not_mem he), displayWords_inj hp.bullet_not_mem hd he]

/-- A symbol that is the bullet is taken for the one that marks the place. -/
example : (Production.mk "A" ["•"]).displayAt 0 0 = (Production.mk "A" ["•"]).displayAt 1 0 := by
  decide

end Production

/-! ## Items -/

variable {ps : List Production} {g : Grammar} {word : List Symbol} {p q : Production}
variable {x y : Item} {i : Nat}

/-- A production that is listed once has one number. -/
theorem Item.Of.production_eq (hps : ps.Nodup) (hx : x.Of ps p) (hy : y.Of ps p) :
    x.production = y.production := by
  have hx? : ps[x.production]? = some p := hx
  have hy? : ps[y.production]? = some p := hy
  exact (List.getElem?_inj (List.getElem?_eq_some_iff.1 hx?).1 hps).1 (hx?.trans hy?.symm)

namespace Grammar

theorem display?_eq_iff (h : ofProductions ps = .ok g) (hplain : ∀ p ∈ ps, p.Plain)
    (hp : x.Of ps p) (hx : x.dot ≤ p.rhs.length) (hq : y.Of ps q) (hy : y.dot ≤ q.rhs.length) :
    x.display? g = y.display? g ↔
      p.lhs = q.lhs ∧ p.rhs = q.rhs ∧ x.dot = y.dot ∧ x.origin = y.origin := by
  rw [display?_of h hp, display?_of h hq, Option.some.injEq]
  exact Production.displayAt_inj (hplain p hp.mem) (hplain q hq.mem) hx hy

/-- Items of a cell that are displayed alike are the same item, if no production
is listed twice. -/
theorem eq_of_display?_eq (h : ofProductions ps = .ok g) (hplain : ∀ p ∈ ps, p.Plain)
    (hps : ps.Nodup) (hx : x ∈ (g.chart word).cell i) (hy : y ∈ (g.chart word).cell i)
    (heq : x.display? g = y.display? g) : x = y := by
  obtain ⟨p, hp, hxdot, -⟩ := ((mem_cell_iff_entailed h).1 hx).valid.fits
  obtain ⟨q, hq, hydot, -⟩ := ((mem_cell_iff_entailed h).1 hy).valid.fits
  obtain ⟨hlhs, hrhs, hdot, horigin⟩ := (display?_eq_iff h hplain hp hxdot hq hydot).1 heq
  have hpq : p = q := by
    cases p
    cases q
    rw [Production.mk.injEq]
    exact ⟨hlhs, hrhs⟩
  have hn : x.production = y.production := hp.production_eq hps (hpq ▸ hq)
  cases x
  cases y
  rw [Item.mk.injEq]
  exact ⟨hn, hdot, horigin⟩

/-- If no symbol holds a space or is the bullet, items are displayed alike when
they have the same sides, the same dot and the same origin, and only then.  If
moreover no production is listed twice, a cell has no two items that are
displayed alike. -/
theorem displays_tell_apart (h : ofProductions ps = .ok g) (hplain : ∀ p ∈ ps, p.Plain) :
    (∀ x y : Item, ∀ p q, x.Of ps p → x.dot ≤ p.rhs.length → y.Of ps q → y.dot ≤ q.rhs.length →
      ∃ d e, x.display? g = some d ∧ y.display? g = some e ∧
        (d = e ↔ p.lhs = q.lhs ∧ p.rhs = q.rhs ∧ x.dot = y.dot ∧ x.origin = y.origin)) ∧
      (ps.Nodup → ∀ word i, (∀ x ∈ (g.chart word).cell i, (x.display? g).isSome) ∧
        (((g.chart word).cell i).toList.map (·.display? g)).Nodup) := by
  refine ⟨fun x y p q hp hx hq hy => ⟨_, _, display?_of h hp, display?_of h hq, ?_⟩,
    fun hps word i => ⟨fun x hx => ?_, ?_⟩⟩
  · exact Production.displayAt_inj (hplain p hp.mem) (hplain q hq.mem) hx hy
  · obtain ⟨p, hp⟩ := exists_of_mem_cell h hx
    rw [display?_of h hp]
    rfl
  · have hcell := (underway_run h word).nodup i
    exact hcell.map_on fun x hx y hy heq => eq_of_display?_eq h hplain hps hx hy heq

/-- `-> -> ε ->`, `-> -> -> ε`, `ε -> @3` and `ε ->`, where `ε` stands for the
empty symbol. -/
def imitations : List Production :=
  [⟨"->", ["", "->"]⟩, ⟨"->", ["->", ""]⟩, ⟨"", ["@3"]⟩, ⟨"", []⟩]

/-- Symbols that look like an arrow or an origin, or like nothing at all, do no
harm. -/
theorem displays_tell_apart_imitations :
    ofProductions imitations = .ok (ofStart "->" imitations) ∧
      (∀ p ∈ imitations, p.Plain) ∧ imitations.Nodup ∧
      (∃ d e, Item.display? (ofStart "->" imitations) ⟨0, 1, 0⟩ = some d ∧
        Item.display? (ofStart "->" imitations) ⟨1, 1, 0⟩ = some e ∧ d ≠ e) ∧
      (((ofStart "->" imitations).chart ["@3"]).cell 1).size = 7 ∧
      ((((ofStart "->" imitations).chart ["@3"]).cell 1).toList.map
        (·.display? (ofStart "->" imitations))).Nodup := by
  have hplain : ∀ p ∈ imitations, p.Plain := by decide
  have hnodup : imitations.Nodup := by decide
  obtain ⟨hitems, hcells⟩ :=
    @displays_tell_apart imitations (ofStart "->" imitations) rfl hplain
  refine ⟨rfl, hplain, hnodup, ?_, by decide +kernel, (hcells hnodup ["@3"] 1).2⟩
  obtain ⟨d, e, hd, he, hiff⟩ := hitems ⟨0, 1, 0⟩ ⟨1, 1, 0⟩ ⟨"->", ["", "->"]⟩
    ⟨"->", ["->", ""]⟩ rfl (by decide) rfl (by decide)
  exact ⟨d, e, hd, he, fun heq => absurd (hiff.1 heq).2.1 (by decide)⟩

end Grammar

end ContextFree
