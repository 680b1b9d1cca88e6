import Mathlib.Data.List.Basic
import ContextFree.Proofs.Lines
import ContextFree.Text.Pattern

/-!
# Reading by patterns

A text that is split at patterns has the productions that are read in it
(`productions_eq_productionsByPattern`).

*Breaks.*  The pattern for breaks prefers the pair, so it takes the line feed
behind a carriage return along.  Otherwise it takes one character.  The lines are
the same as those between single breaks after the carriage returns of the pairs
are dropped (`split_lineBreak`).

*Spaces.*  In a line, of the characters of the space only the blanks occur.  A
line that has been trimmed begins and ends with a word, and so no piece is empty:
the pieces are the words (`split_spaces`).
-/

namespace ContextFree.Text

variable {c : Char} {cs w line : List Char} {ws : List (List Char)}

/-! ## Breaks -/

theorem breakFree_of_mem_lines (h : line ∈ lines cs) : BreakFree line := forall_mem_pieces line h

namespace Pattern

theorem rest?_lineBreak_pair (cs : List Char) : lineBreak.rest? ('\r' :: '\n' :: cs) = some cs :=
  rfl

theorem rest?_lineBreak (hpair : ∀ ds, c = '\r' → cs = '\n' :: ds → False) :
    lineBreak.rest? (c :: cs) = if isBreak c then some cs else none := by
  have hfirst : (seq (.oneOf ['\r']) (.oneOf ['\n'])).rests (c :: cs) = [] := by
    rw [rests, rests]
    split
    · next hc =>
      obtain rfl := List.mem_singleton.1 hc
      cases cs with
      | nil => rfl
      | cons d ds =>
        have hd : d ∉ ['\n'] := fun hd => hpair ds rfl (by rw [List.mem_singleton.1 hd])
        rw [List.flatMap_cons, rests, if_neg hd]
        rfl
    · rfl
  rw [rest?, lineBreak, rests, hfirst, List.nil_append, rests, isBreak]
  by_cases hc : c ∈ breaks
  · rw [if_pos hc, if_pos (decide_eq_true hc)]
    rfl
  · rw [if_neg hc, if_neg (by rwa [decide_eq_true_iff])]
    rfl

/-- The pieces between breaks are the lines. -/
theorem split_lineBreak (cs : List Char) : lineBreak.split cs = lines cs := by
  rw [lines]
  induction cs using mergeReturns.induct with
  | case1 cs ih =>
    rw [split_of_rest? (rest?_lineBreak_pair cs), mergeReturns, ih]
    rfl
  | case2 c cs hpair ih =>
    have hrest := rest?_lineBreak hpair
    rw [mergeReturns, pieces, ← ih]
    · split
      · next hc =>
        rw [if_pos hc] at hrest
        exact split_of_rest? hrest
      · next hc =>
        rw [if_neg hc] at hrest
        exact split_of_rest?_eq_none hrest
    · exact hpair
  | case3 => exact split_nil

/-! ## Spaces -/

/-- The longest run is preferred. -/
theorem head?_restsOfRun {chars : List Char} (hc : c ∈ chars) :
    (restsOfRun chars (c :: cs)).head? = some (cs.dropWhile (· ∈ chars)) := by
  induction cs generalizing c with
  | nil => rw [restsOfRun, if_pos hc]; rfl
  | cons d ds ih =>
    rw [restsOfRun, if_pos hc, List.head?_append]
    by_cases hd : d ∈ chars
    · have hdrop : (d :: ds).dropWhile (· ∈ chars) = ds.dropWhile (· ∈ chars) :=
        List.dropWhile_cons_of_pos (decide_eq_true hd)
      rw [ih hd, hdrop]
      rfl
    · have hdrop : (d :: ds).dropWhile (· ∈ chars) = d :: ds :=
        List.dropWhile_cons_of_neg (by rwa [decide_eq_true_iff])
      rw [restsOfRun, if_neg hd, hdrop]
      rfl

theorem mem_spaceChars_of_isBlank (h : isBlank c = true) : c ∈ spaceChars := by
  rw [isBlank, Bool.or_eq_true, beq_iff_eq, beq_iff_eq] at h
  rcases h with rfl | rfl
  · decide
  · decide

/-- A character of the space is a blank or ends a line, so words have none. -/
theorem not_mem_spaceChars (hw : IsWord w) (hc : c ∈ w) : c ∉ spaceChars := by
  intro h
  have hall : spaceChars.all (fun c => isBlank c || isBreak c) = true := by decide
  have hkind := List.all_eq_true.1 hall c h
  obtain ⟨hblank, hbreak⟩ := hw.2 c hc
  rw [hblank, hbreak] at hkind
  cases hkind

/-- What the pattern does not match stays in front of the first piece. -/
theorem split_spaces_append (hw : ∀ c ∈ w, c ∉ spaceChars) (cs : List Char) :
    spaces.split (w ++ cs) = (spaces.split cs).modifyHead (w ++ ·) := by
  induction w with
  | nil => exact (congrFun List.modifyHead_id (spaces.split cs)).symm
  | cons c w ih =>
    have hrest : spaces.rest? (c :: (w ++ cs)) = none := by
      rw [rest?, spaces, rests, restsOfRun, if_neg (hw c (List.mem_cons_self ..))]
      rfl
    rw [List.cons_append, split_of_rest?_eq_none hrest,
      ih fun d hd => hw d (List.mem_cons_of_mem _ hd), List.modifyHead_modifyHead]
    rfl

/-- A gap in front of a word ends an empty piece. -/
theorem split_spaces_gap {gap : List Char} (hgap : IsGap gap)
    (hcs : ∀ c ∈ cs.head?, c ∉ spaceChars) : spaces.split (gap ++ cs) = [] :: spaces.split cs := by
  obtain ⟨hne, hblank⟩ := hgap
  have hmem : ∀ c ∈ gap, c ∈ spaceChars := fun c hc => mem_spaceChars_of_isBlank (hblank c hc)
  obtain ⟨c, gap, rfl⟩ := List.exists_cons_of_ne_nil hne
  refine split_of_rest? ?_
  have hdrop : (gap ++ cs).dropWhile (· ∈ spaceChars) = cs :=
    dropWhile_append_of_head
      (fun d hd => decide_eq_true (hmem d (List.mem_cons_of_mem _ hd)))
      fun d hd => decide_eq_false (hcs d hd)
  have hhead : spaces.rest? (c :: (gap ++ cs)) = some ((gap ++ cs).dropWhile (· ∈ spaceChars)) :=
    head?_restsOfRun (hmem c (List.mem_cons_self ..))
  rwa [hdrop] at hhead

/-- The pieces of a trimmed line are its words. -/
theorem split_spaces (h : SpacedWords cs ws) : spaces.split cs = ws := by
  induction h with
  | @one w hw =>
    have hsplit := split_spaces_append (fun _ hc => not_mem_spaceChars hw hc) []
    rw [List.append_nil, split_nil, List.modifyHead_cons, List.append_nil] at hsplit
    exact hsplit
  | @more w gap cs ws hw hgap hrest ih =>
    have hcs : ∀ c ∈ cs.head?, c ∉ spaceChars := by
      obtain ⟨v, vs, rfl⟩ := hrest.exists_eq_cons
      rw [hrest.head?_eq]
      intro c hc
      exact not_mem_spaceChars (hrest.isWord_of_mem v (List.mem_cons_self ..))
        (List.mem_of_head? hc)
    rw [List.append_assoc, split_spaces_append (fun _ hc => not_mem_spaceChars hw hc),
      split_spaces_gap hgap hcs, ih, List.modifyHead_cons, List.append_nil]

end Pattern

/-! ## Texts -/

open Pattern (spaces)

theorem productionOf?_eq_ofWords (h : BreakFree line) :
    productionOf? line =
      if trim line ≠ [] then some (ofWords (spaces.split (trim line))) else none := by
  by_cases htrim : trim line = []
  · rw [productionOf?_of_trim_eq_nil htrim, if_neg (not_not_intro htrim)]
  · have hwords := spacedWords_trim h htrim
    obtain ⟨v, vs, hv⟩ := hwords.exists_eq_cons
    rw [productionOf?_of_words hv, if_pos htrim, Pattern.split_spaces hwords, hv, ofWords]

/-- Split at the patterns, a text has the productions that are read in it. -/
theorem productions_eq_productionsByPattern (text : String) :
    productions text = productionsByPattern text := by
  have hline : ∀ line ∈ lines text.toList, productionOf? line =
      if trim line ≠ [] then some (ofWords (spaces.split (trim line))) else none :=
    fun line hl => productionOf?_eq_ofWords (breakFree_of_mem_lines hl)
  calc productions text
      = (lines text.toList).filterMap fun line =>
          if trim line ≠ [] then some (ofWords (spaces.split (trim line))) else none :=
        List.filterMap_congr hline
    _ = (((lines text.toList).map trim).filter (· ≠ [])).map fun line =>
          ofWords (spaces.split line) := by
        rw [← List.filterMap_eq_map', List.filterMap_filter, List.filterMap_map]
        simp only [Function.comp_def, decide_eq_true_iff]
    _ = productionsByPattern text := by rw [productionsByPattern, Pattern.split_lineBreak]

end ContextFree.Text
