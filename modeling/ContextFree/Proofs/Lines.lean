import ContextFree.Text.Format
import ContextFree.Text.Reader

/-!
# What is read on a line

The production on a line is found by trimming the line and cutting it at its
blanks.  The format says instead how a line is put together.  The two agree on
every list of characters without a break (`readsLine_iff`).

*From the format.*  Trimming takes the padding away and stops at the words,
which neither begin nor end with it (`trim_padded`).  Cutting at the blanks takes
the gaps away (`words_of_spacedWords`).

*To the format.*  What trimming takes away is padding (`exists_padding`).  What
is left ends with a character of a word.  So it is words with gaps between them,
and maybe a gap in front (`exists_spacedWords`), by induction on the characters:
a blank makes the gap in front longer, and any other character begins a word or
makes the first one longer.  There is no gap in front, since what is left begins
with a character of a word too.

The productions that a line can hold are the clean ones (`clean_iff`).
-/

namespace ContextFree.Text

variable {c : Char} {cs ds w gap front back line : List Char} {ws : List (List Char)}
variable {p : Production} {found : Option Production}

/-! ## Kinds of characters -/

/-- Characters of one line. -/
def BreakFree (cs : List Char) : Prop := ∀ c ∈ cs, isBreak c = false

theorem BreakFree.nil : BreakFree [] := fun _ hc => (List.not_mem_nil hc).elim

theorem BreakFree.append (hcs : BreakFree cs) (hds : BreakFree ds) : BreakFree (cs ++ ds) :=
  fun c hc => (List.mem_append.1 hc).elim (hcs c) (hds c)

theorem BreakFree.singleton (hc : isBreak c = false) : BreakFree [c] := by
  intro d hd
  exact List.mem_singleton.1 hd ▸ hc

/-- A line that goes on with a character that is no break. -/
theorem BreakFree.concat (hcs : BreakFree cs) (hc : isBreak c = false) : BreakFree (cs ++ [c]) :=
  hcs.append (.singleton hc)

theorem isPad_of_isBlank (h : isBlank c = true) : isPad c = true := by
  rw [isBlank, Bool.or_eq_true, beq_iff_eq, beq_iff_eq] at h
  rcases h with rfl | rfl
  · rfl
  · rfl

theorem isBreak_of_isBlank (h : isBlank c = true) : isBreak c = false := by
  rw [isBlank, Bool.or_eq_true, beq_iff_eq, beq_iff_eq] at h
  rcases h with rfl | rfl
  · rfl
  · rfl

theorem isBlank_of_isPad (h : isPad c = false) : isBlank c = false := by
  cases hb : isBlank c with
  | false => rfl
  | true => rw [isPad_of_isBlank hb] at h; cases h

theorem IsWord.cons (hc : isBlank c = false) (hc' : isBreak c = false) (h : IsWord w) :
    IsWord (c :: w) := by
  refine ⟨List.cons_ne_nil c w, fun d hd => ?_⟩
  cases hd with
  | head => exact ⟨hc, hc'⟩
  | tail _ hd => exact h.2 d hd

theorem IsWord.singleton (hc : isBlank c = false) (hc' : isBreak c = false) : IsWord [c] := by
  refine ⟨List.cons_ne_nil c [], fun d hd => ?_⟩
  obtain rfl := List.mem_singleton.1 hd
  exact ⟨hc, hc'⟩

theorem IsWord.breakFree (h : IsWord w) : BreakFree w := fun c hc => (h.2 c hc).2

theorem IsGap.breakFree (h : IsGap gap) : BreakFree gap := fun c hc => isBreak_of_isBlank (h.2 c hc)

theorem IsPadding.breakFree (h : IsPadding cs) : BreakFree cs := fun c hc => (h c hc).2

theorem IsPadding.isPad_of_mem (h : IsPadding cs) : ∀ c ∈ cs, isPad c = true :=
  fun c hc => (h c hc).1

theorem IsPadding.nil : IsPadding [] := fun _ hc => (List.not_mem_nil hc).elim

/-! ## Trimming -/

/-- Dropping stops at the first element that is not to be dropped. -/
theorem dropWhile_append_of_head {α : Type} {q : α → Bool} {xs ys : List α}
    (hxs : ∀ x ∈ xs, q x = true) (hys : ∀ y ∈ ys.head?, q y = false) :
    (xs ++ ys).dropWhile q = ys := by
  rw [List.dropWhile_append_of_pos hxs]
  cases ys with
  | nil => rfl
  | cons y ys =>
    have hy : ¬ q y = true := by simp [hys y rfl]
    exact List.dropWhile_cons_of_neg hy

/-- The padding on both sides is taken away, and nothing else. -/
theorem trim_padded (hfront : ∀ c ∈ front, isPad c = true) (hback : ∀ c ∈ back, isPad c = true)
    (hhead : ∀ c ∈ cs.head?, isPad c = false) (hlast : ∀ c ∈ cs.getLast?, isPad c = false) :
    trim (front ++ cs ++ back) = cs := by
  have hend : (cs ++ back).reverse.dropWhile isPad = cs.reverse := by
    rw [List.reverse_append]
    refine dropWhile_append_of_head (fun c hc => hback c (List.mem_reverse.1 hc)) fun c hc => ?_
    rw [List.head?_reverse] at hc
    exact hlast c hc
  cases cs with
  | nil =>
    -- There is nothing between, and the padding in front is dropped with that behind.
    have hall : ∀ c ∈ front ++ back, isPad c = true := fun c hc =>
      (List.mem_append.1 hc).elim (hfront c) (hback c)
    have hdrop : (front ++ back ++ []).dropWhile isPad = [] :=
      dropWhile_append_of_head hall fun c hc => by cases hc
    rw [List.append_nil] at hdrop ⊢
    rw [trim, hdrop]
    rfl
  | cons d ds =>
    have hdrop : (front ++ (d :: ds ++ back)).dropWhile isPad = d :: ds ++ back :=
      dropWhile_append_of_head hfront hhead
    rw [trim, List.append_assoc, hdrop, hend, List.reverse_reverse]

/-- A list falls into what is dropped and what is left. -/
theorem exists_eq_append_dropWhile {α : Type} (q : α → Bool) (xs : List α) :
    ∃ ys, xs = ys ++ xs.dropWhile q ∧ (∀ y ∈ ys, q y = true) ∧
      ∀ x ∈ (xs.dropWhile q).head?, q x = false := by
  refine ⟨xs.takeWhile q, List.takeWhile_append_dropWhile.symm, ?_, fun x hx => ?_⟩
  · exact List.all_eq_true.1 List.all_takeWhile
  · have hhead := List.head?_dropWhile_not q xs
    rw [Option.mem_def.1 hx] at hhead
    exact hhead

/-- A line is what trimming leaves of it with padding on both sides. -/
theorem exists_padding (line : List Char) :
    ∃ front back, line = front ++ trim line ++ back ∧
      (∀ c ∈ front, isPad c = true) ∧ (∀ c ∈ back, isPad c = true) ∧
      (∀ c ∈ (trim line).head?, isPad c = false) ∧
      ∀ c ∈ (trim line).getLast?, isPad c = false := by
  obtain ⟨front, hline, hfront, hhead⟩ := exists_eq_append_dropWhile isPad line
  obtain ⟨back, hrest, hback, hlast⟩ :=
    exists_eq_append_dropWhile isPad (line.dropWhile isPad).reverse
  have hmid : line.dropWhile isPad = trim line ++ back.reverse := by
    rw [trim, ← List.reverse_append, ← hrest, List.reverse_reverse]
  refine ⟨front, back.reverse, ?_, hfront, ?_, ?_, ?_⟩
  · rw [List.append_assoc, ← hmid]
    exact hline
  · exact fun c hc => hback c (List.mem_reverse.1 hc)
  · intro c hc
    rw [hmid, List.head?_append, Option.mem_def.1 hc] at hhead
    exact hhead c rfl
  · intro c hc
    rw [trim, List.getLast?_reverse] at hc
    exact hlast c hc

/-! ## Words -/

theorem words_append_cons (hc : isBlank c = true) (cs ds : List Char) :
    words (cs ++ c :: ds) = words cs ++ words ds := by
  rw [words, pieces_append_cons hc, List.filter_append]
  rfl

theorem words_of_isWord (h : IsWord w) : words w = [w] := by
  rw [words, pieces_eq_singleton fun c hc => (h.2 c hc).1, List.filter_cons,
    if_pos (decide_eq_true h.1)]
  rfl

theorem words_gap_append (h : ∀ c ∈ gap, isBlank c = true) (cs : List Char) :
    words (gap ++ cs) = words cs := by
  induction gap with
  | nil => rfl
  | cons c gap ih =>
    have hc : words ([] ++ c :: (gap ++ cs)) = words [] ++ words (gap ++ cs) :=
      words_append_cons (h c (List.mem_cons_self ..)) [] _
    exact hc.trans (ih fun d hd => h d (List.mem_cons_of_mem _ hd))

theorem words_of_spacedWords (h : SpacedWords cs ws) : words cs = ws := by
  induction h with
  | one hw => exact words_of_isWord hw
  | @more w gap cs ws hw hgap _ ih =>
    obtain ⟨hne, hblank⟩ := hgap
    cases gap with
    | nil => exact absurd rfl hne
    | cons c gap =>
      have hc : isBlank c = true := hblank c (List.mem_cons_self ..)
      rw [List.append_assoc, List.cons_append, words_append_cons hc, words_of_isWord hw,
        words_gap_append (fun d hd => hblank d (List.mem_cons_of_mem _ hd)), ih]
      rfl

theorem SpacedWords.exists_cons (hc : isBlank c = false) (hc' : isBreak c = false)
    (h : SpacedWords cs ws) : ∃ ws', SpacedWords (c :: cs) ws' := by
  cases h with
  | one hw => exact ⟨_, .one (hw.cons hc hc')⟩
  | more hw hgap hrest => exact ⟨_, .more (hw.cons hc hc') hgap hrest⟩

/-- What ends with a character of a word is words with gaps between them, behind
a gap that may be empty. -/
theorem exists_spacedWords (hbreak : BreakFree cs)
    (hlast : ∀ c ∈ cs.getLast?, isBlank c = false) (hne : cs ≠ []) :
    ∃ gap ds ws, cs = gap ++ ds ∧ (∀ c ∈ gap, isBlank c = true) ∧ SpacedWords ds ws := by
  induction cs with
  | nil => exact absurd rfl hne
  | cons c cs ih =>
    have hc' : isBreak c = false := hbreak c (List.mem_cons_self ..)
    cases cs with
    | nil =>
      have hc : isBlank c = false := hlast c rfl
      exact ⟨[], [c], [[c]], rfl, fun d hd => (List.not_mem_nil hd).elim,
        .one (.singleton hc hc')⟩
    | cons d ds =>
      obtain ⟨gap, es, ws, hds, hgap, hes⟩ :=
        ih (fun e he => hbreak e (List.mem_cons_of_mem _ he)) hlast (List.cons_ne_nil d ds)
      cases hc : isBlank c with
      | true =>
        refine ⟨c :: gap, es, ws, congrArg (c :: ·) hds, fun e he => ?_, hes⟩
        cases he with
        | head => exact hc
        | tail _ he => exact hgap e he
      | false =>
        refine ⟨[], c :: d :: ds, ?_⟩
        cases gap with
        | nil =>
          obtain ⟨ws', hws'⟩ := hes.exists_cons hc hc'
          exact ⟨ws', rfl, fun e he => (List.not_mem_nil he).elim, hds ▸ hws'⟩
        | cons e gap =>
          have hmore : SpacedWords ([c] ++ e :: gap ++ es) ([c] :: ws) :=
            .more (.singleton hc hc') ⟨List.cons_ne_nil e gap, hgap⟩ hes
          exact ⟨[c] :: ws, rfl, fun e he => (List.not_mem_nil he).elim, hds ▸ hmore⟩

/-- So what begins with a character of a word too is words with gaps between
them. -/
theorem spacedWords_words (hbreak : BreakFree cs)
    (hhead : ∀ c ∈ cs.head?, isBlank c = false) (hlast : ∀ c ∈ cs.getLast?, isBlank c = false)
    (hne : cs ≠ []) : SpacedWords cs (words cs) := by
  obtain ⟨gap, ds, ws, rfl, hgap, hds⟩ := exists_spacedWords hbreak hlast hne
  cases gap with
  | nil =>
    rw [List.nil_append, words_of_spacedWords hds]
    exact hds
  | cons c gap =>
    have hc : isBlank c = true := hgap c (List.mem_cons_self ..)
    rw [hhead c rfl] at hc
    cases hc

namespace SpacedWords

theorem exists_eq_cons (h : SpacedWords cs ws) : ∃ w ws', ws = w :: ws' := by
  cases h with
  | one => exact ⟨_, [], rfl⟩
  | more => exact ⟨_, _, rfl⟩

theorem isWord_of_mem (h : SpacedWords cs ws) : ∀ w ∈ ws, IsWord w := by
  induction h with
  | one hw =>
    intro v hv
    exact List.mem_singleton.1 hv ▸ hw
  | more hw _ _ ih =>
    intro v hv
    cases hv with
    | head => exact hw
    | tail _ hv => exact ih v hv

theorem ne_nil (h : SpacedWords cs ws) : cs ≠ [] := by
  cases h with
  | one hw => exact hw.1
  | more hw =>
    rw [List.append_assoc]
    exact List.append_ne_nil_of_left_ne_nil hw.1 _

theorem breakFree (h : SpacedWords cs ws) : BreakFree cs := by
  induction h with
  | one hw => exact hw.breakFree
  | more hw hgap _ ih => exact (hw.breakFree.append hgap.breakFree).append ih

/-- They begin as the first word does. -/
theorem head?_eq (h : SpacedWords cs (w :: ws)) : cs.head? = w.head? := by
  cases h with
  | one => rfl
  | more hw =>
    cases w with
    | nil => exact absurd rfl hw.1
    | cons => rfl

/-- They end as the last word does. -/
theorem getLast?_eq (h : SpacedWords cs ws) : ∃ w ∈ ws.getLast?, cs.getLast? = w.getLast? := by
  induction h with
  | @one w => exact ⟨w, rfl, rfl⟩
  | @more w gap cs ws _ _ hrest ih =>
    obtain ⟨v, hv, heq⟩ := ih
    refine ⟨v, ?_, ?_⟩
    · rw [List.getLast?_cons, Option.mem_def.1 hv]
      rfl
    · cases hlast : cs.getLast? with
      | none => exact absurd (List.getLast?_eq_none_iff.1 hlast) hrest.ne_nil
      | some c =>
        rw [List.getLast?_append, ← heq, hlast]
        rfl

end SpacedWords

/-! ## Lines -/

theorem productionOf?_of_words {w : List Char} (h : words (trim line) = w :: ws) :
    productionOf? line = some ⟨.ofList w, ws.map .ofList⟩ := by
  rw [productionOf?, h]
  rfl

theorem productionOf?_of_trim_eq_nil (h : trim line = []) : productionOf? line = none := by
  rw [productionOf?, h]
  rfl

theorem ReadsLine.breakFree (h : ReadsLine line found) : BreakFree line := by
  cases h with
  | blank hpad => exact hpad.breakFree
  | words hfront hback hwords =>
    exact (hfront.breakFree.append hwords.breakFree).append hback.breakFree

/-- What is found on a line is what the format has there. -/
theorem ReadsLine.productionOf?_eq (h : ReadsLine line found) : productionOf? line = found := by
  cases h with
  | blank hpad =>
    have htrim : trim ([] ++ [] ++ line) = [] :=
      trim_padded IsPadding.nil.isPad_of_mem hpad.isPad_of_mem (fun c hc => by cases hc)
        fun c hc => by cases hc
    exact productionOf?_of_trim_eq_nil htrim
  | words hfront hback hwords hhead hlast =>
    have htrim := trim_padded hfront.isPad_of_mem hback.isPad_of_mem hhead hlast
    exact productionOf?_of_words (htrim.symm ▸ words_of_spacedWords hwords)

/-- What trimming leaves of a line is words, unless it leaves nothing. -/
theorem spacedWords_trim (h : BreakFree line) (hne : trim line ≠ []) :
    SpacedWords (trim line) (words (trim line)) := by
  obtain ⟨front, back, hline, -, -, hhead, hlast⟩ := exists_padding line
  have hbreak : BreakFree (trim line) := by
    intro c hc
    have hmem : c ∈ front ++ trim line ++ back :=
      List.mem_append_left back (List.mem_append_right front hc)
    rw [← hline] at hmem
    exact h c hmem
  exact spacedWords_words hbreak (fun c hc => isBlank_of_isPad (hhead c hc))
    (fun c hc => isBlank_of_isPad (hlast c hc)) hne

/-- The format has a place for all characters of one line. -/
theorem readsLine_productionOf? (h : BreakFree line) : ReadsLine line (productionOf? line) := by
  obtain ⟨front, back, hline, hfront, hback, hhead, hlast⟩ := exists_padding line
  have hwords := spacedWords_trim h
  generalize htrim : trim line = mid at hline hhead hlast hwords
  subst hline
  simp only [BreakFree, List.mem_append] at h
  have hfront' : IsPadding front := fun c hc => ⟨hfront c hc, h c (.inl (.inl hc))⟩
  have hback' : IsPadding back := fun c hc => ⟨hback c hc, h c (.inr hc)⟩
  cases mid with
  | nil =>
    rw [productionOf?_of_trim_eq_nil htrim, List.append_nil]
    exact .blank fun c hc => (List.mem_append.1 hc).elim (hfront' c) (hback' c)
  | cons d ds =>
    have hwords := hwords (List.cons_ne_nil d ds)
    generalize hw : words (d :: ds) = ws at hwords
    obtain ⟨w, ws, rfl⟩ := hwords.exists_eq_cons
    rw [productionOf?_of_words (htrim.symm ▸ hw)]
    exact .words hfront' hback' hwords hhead hlast

/-- A line of the format is a list of characters without a break, with the
production that is found on it. -/
theorem readsLine_iff :
    ReadsLine line found ↔ BreakFree line ∧ productionOf? line = found := by
  constructor
  · exact fun h => ⟨h.breakFree, h.productionOf?_eq⟩
  · rintro ⟨h, rfl⟩
    exact readsLine_productionOf? h

/-! ## Clean productions -/

/-- What a line holds is clean. -/
theorem ReadsLine.clean (h : ReadsLine line (some p)) : Clean p := by
  generalize hfound : some p = found at h
  cases h with
  | blank => cases hfound
  | @words _ _ cs lhs rhs _ _ hwords hhead hlast =>
    obtain rfl := Option.some.inj hfound
    refine ⟨fun s hs => ?_, fun c hc => ?_, fun s hs c hc => ?_⟩
    · have hs : s ∈ (lhs :: rhs).map String.ofList := hs
      obtain ⟨w, hw, rfl⟩ := List.mem_map.1 hs
      rw [String.toList_ofList]
      exact hwords.isWord_of_mem w hw
    · rw [String.toList_ofList, ← hwords.head?_eq] at hc
      exact hhead c hc
    · obtain ⟨w, hw, heq⟩ := hwords.getLast?_eq
      have hs : s ∈ ((lhs :: rhs).map String.ofList).getLast? := hs
      rw [List.getLast?_map, Option.mem_def.1 hw] at hs
      obtain rfl := Option.some.inj hs
      rw [String.toList_ofList, ← heq] at hc
      exact hlast c hc

theorem toList_spaced_cons (s t : Symbol) (symbols : List Symbol) :
    (Symbol.spaced (s :: t :: symbols)).toList =
      s.toList ++ [' '] ++ (Symbol.spaced (t :: symbols)).toList := by
  rw [Symbol.spaced, String.intercalate_cons_cons, String.toList_append, String.toList_append]
  rfl

/-- Words with one space between neighbours are words with gaps between them. -/
theorem spacedWords_spaced {s : Symbol} {symbols : List Symbol}
    (h : ∀ t ∈ s :: symbols, IsWord t.toList) :
    SpacedWords (Symbol.spaced (s :: symbols)).toList ((s :: symbols).map String.toList) := by
  have hs : IsWord s.toList := h s (List.mem_cons_self ..)
  induction symbols generalizing s with
  | nil =>
    rw [Symbol.spaced, String.intercalate_singleton]
    exact .one hs
  | cons t symbols ih =>
    have ht : ∀ u ∈ t :: symbols, IsWord u.toList := fun u hu => h u (List.mem_cons_of_mem _ hu)
    have hgap : IsGap [' '] := by simp [IsGap, isBlank]
    rw [toList_spaced_cons]
    exact .more hs hgap (ih ht (ht t (List.mem_cons_self ..)))

/-- The line of a clean production holds it. -/
theorem Clean.readsLine (h : Clean p) :
    ReadsLine (Symbol.spaced (p.lhs :: p.rhs)).toList (some p) := by
  have hwords := spacedWords_spaced h.words
  obtain ⟨w, hw, heq⟩ := hwords.getLast?_eq
  rw [List.getLast?_map, Option.mem_def, Option.map_eq_some_iff] at hw
  obtain ⟨s, hs, rfl⟩ := hw
  have hline := ReadsLine.words .nil .nil hwords (fun c hc => h.head c (hwords.head?_eq ▸ hc))
    fun c hc => h.last s hs c (heq ▸ hc)
  have hback : String.ofList ∘ String.toList = id := funext fun t => String.ofList_toList
  rw [List.nil_append, List.append_nil, String.ofList_toList, List.map_map, hback,
    List.map_id] at hline
  exact hline

/-- The productions that a line can hold are the clean ones. -/
theorem clean_iff : Clean p ↔ ∃ line, ReadsLine line (some p) := by
  constructor
  · exact fun h => ⟨_, h.readsLine⟩
  · rintro ⟨line, h⟩
    exact h.clean

-- The search alone may find an instance that goes through all characters there
-- are, and not only those at hand.
instance (cs : List Char) : Decidable (IsWord cs) :=
  haveI := List.decidableBAll (fun c => isBlank c = false ∧ isBreak c = false) cs
  inferInstanceAs (Decidable (cs ≠ [] ∧ ∀ c ∈ cs, isBlank c = false ∧ isBreak c = false))

theorem clean_iff_and :
    (∀ s ∈ p.lhs :: p.rhs, IsWord s.toList) ∧ (∀ c ∈ p.lhs.toList.head?, isPad c = false) ∧
      (∀ s ∈ (p.lhs :: p.rhs).getLast?, ∀ c ∈ s.toList.getLast?, isPad c = false) ↔ Clean p :=
  ⟨fun h => ⟨h.1, h.2.1, h.2.2⟩, fun h => ⟨h.words, h.head, h.last⟩⟩

instance (p : Production) : Decidable (Clean p) :=
  haveI (o : Option Char) : Decidable (∀ c ∈ o, isPad c = false) := o.decidableForallMem
  decidable_of_iff _ clean_iff_and

example : Clean ⟨"S", ["\x01", "a"]⟩ ∧ ¬ Clean ⟨"S", ["a", "\x01"]⟩ := by decide

end ContextFree.Text
