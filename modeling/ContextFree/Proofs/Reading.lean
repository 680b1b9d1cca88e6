import ContextFree.Proofs.Lines

/-!
# What is read in a text

A text can be put together by the format in many ways, and in each of them it has
the productions that are read in it (`reads_iff`).

The one thing in doubt is a carriage return with a line feed behind it.  It is
one break, or two breaks with an empty line between them, and the second can
happen when a text that ends with the one is put before a text that begins with
the other.  But an empty line holds no production, so it does not matter
(`listed_eq`), and each break can be taken by itself.  Then what is read in two
texts with a break between them is what is read in the one and in the other
(`listed_append_break`).

*From the format.*  By induction on the lines.

*To the format.*  By induction on the characters, with the characters of the
line so far in front.
-/

namespace ContextFree.Text

variable {cs ds brk front line : List Char} {ps : List Production}

/-- The productions of a list of characters, line by line. -/
def listed (cs : List Char) : List Production := (lines cs).filterMap productionOf?

/-! ## Breaks -/

/-- Behind characters of a line, it does not matter whether a carriage return is
kept before a line feed. -/
theorem filterMap_pieces_mergeReturns (cs : List Char) (hfront : BreakFree front) :
    (pieces isBreak (front ++ mergeReturns cs)).filterMap productionOf? =
      (pieces isBreak (front ++ cs)).filterMap productionOf? := by
  induction cs using mergeReturns.induct generalizing front with
  | case1 cs ih =>
    -- The carriage return leaves an empty line behind.
    have hempty : pieces isBreak ('\n' :: cs) = [] :: pieces isBreak cs := rfl
    rw [mergeReturns, pieces_append_cons rfl, pieces_append_cons rfl, hempty,
      List.filterMap_append, List.filterMap_append]
    exact congrArg (_ ++ ·) (ih .nil)
  | case2 c cs hpair ih =>
    rw [mergeReturns]
    · cases hc : isBreak c with
      | true =>
        rw [pieces_append_cons hc, pieces_append_cons hc, List.filterMap_append,
          List.filterMap_append]
        exact congrArg (_ ++ ·) (ih .nil)
      | false =>
        have h := ih (hfront.concat hc)
        rwa [List.append_assoc, List.append_assoc] at h
    · exact hpair
  | case3 => rfl

/-- A carriage return before a line feed may count as a break of its own. -/
theorem listed_eq (cs : List Char) : listed cs = (pieces isBreak cs).filterMap productionOf? :=
  filterMap_pieces_mergeReturns cs BreakFree.nil

/-- What stands before and after a break is read apart, also where characters of
the break and its neighbours come together. -/
theorem listed_append_break (hbrk : IsLineBreak brk) (cs ds : List Char) :
    listed (cs ++ brk ++ ds) = listed cs ++ listed ds := by
  rw [listed_eq, listed_eq, listed_eq, List.append_assoc, ← List.filterMap_append]
  cases hbrk with
  | single hc => exact congrArg _ (pieces_append_cons hc cs ds)
  | pair =>
    have hempty : pieces isBreak ('\n' :: ds) = [] :: pieces isBreak ds := rfl
    rw [List.cons_append, List.cons_append, pieces_append_cons rfl, List.nil_append, hempty,
      List.filterMap_append, List.filterMap_append]
    rfl

theorem listed_of_breakFree (h : BreakFree line) :
    listed line = (productionOf? line).toList := by
  rw [listed_eq, pieces_eq_singleton h]
  cases hp : productionOf? line with
  | none => rw [List.filterMap_cons, hp]; rfl
  | some p => rw [List.filterMap_cons, hp]; rfl

/-! ## Texts -/

theorem Reads.listed_eq (h : Reads cs ps) : listed cs = ps := by
  induction h with
  | last hline =>
    obtain ⟨hfree, rfl⟩ := readsLine_iff.1 hline
    exact listed_of_breakFree hfree
  | next hline hbrk _ ih =>
    obtain ⟨hfree, rfl⟩ := readsLine_iff.1 hline
    rw [listed_append_break hbrk, listed_of_breakFree hfree, ih]

/-- The format has a place for every text. -/
theorem reads_append_listed (cs : List Char) (hfront : BreakFree front) :
    Reads (front ++ cs) (listed (front ++ cs)) := by
  induction cs generalizing front with
  | nil =>
    rw [List.append_nil, listed_of_breakFree hfront]
    exact .last (readsLine_iff.2 ⟨hfront, rfl⟩)
  | cons c cs ih =>
    cases hc : isBreak c with
    | true =>
      have hsplit : listed (front ++ [c] ++ cs) = listed front ++ listed cs :=
        listed_append_break (.single hc) front cs
      have hrest : Reads ([] ++ cs) (listed ([] ++ cs)) := ih .nil
      rw [List.append_assoc, listed_of_breakFree hfront] at hsplit
      have hnext := Reads.next (readsLine_iff.2 ⟨hfront, rfl⟩) (.single hc) hrest
      rwa [List.append_assoc, List.nil_append, ← hsplit] at hnext
    | false =>
      have h := ih (hfront.concat hc)
      rwa [List.append_assoc] at h

/-- A text has by the format the productions that are read in it, and no
others. -/
theorem reads_iff : Reads cs ps ↔ listed cs = ps := by
  constructor
  · exact Reads.listed_eq
  · rintro rfl
    exact reads_append_listed cs BreakFree.nil

/-- Every text is made of lines with breaks between them, and however it is made
of them, the productions read are those on the lines.  So a break between two
texts parts what is read. -/
theorem productions_eq_of_reads :
    (∀ text : String, Reads text.toList (productions text)) ∧
      (∀ (text : String) (ps : List Production), Reads text.toList ps → productions text = ps) ∧
      ∀ t₁ brk t₂ : String, IsLineBreak brk.toList →
        productions (t₁ ++ brk ++ t₂) = productions t₁ ++ productions t₂ := by
  refine ⟨fun text => reads_iff.2 rfl, fun text ps h => reads_iff.1 h, fun t₁ brk t₂ hbrk => ?_⟩
  have h := listed_append_break hbrk t₁.toList t₂.toList
  rwa [← String.toList_append, ← String.toList_append] at h

/-- A line feed between a text that ends with a carriage return and one that
begins with a line feed of its own.  What is read is also what the format has
when each of the three counts as a break. -/
theorem productions_eq_of_reads_returns :
    IsLineBreak "\n".toList ∧
      productions ("S a\r" ++ "\n" ++ "\nS") = productions "S a\r" ++ productions "\nS" ∧
      Reads "S a\r\n\nS".toList [⟨"S", ["a"]⟩, ⟨"S", []⟩] ∧
      productions "S a\r\n\nS" = [⟨"S", ["a"]⟩, ⟨"S", []⟩] := by
  obtain ⟨-, hunique, happend⟩ := productions_eq_of_reads
  have hfeed : IsLineBreak "\n".toList := .single rfl
  have hS : ReadsLine (Symbol.spaced ["S"]).toList (some ⟨"S", []⟩) :=
    Clean.readsLine (p := ⟨"S", []⟩) (by decide)
  have hSa : ReadsLine (Symbol.spaced ["S", "a"]).toList (some ⟨"S", ["a"]⟩) :=
    Clean.readsLine (p := ⟨"S", ["a"]⟩) (by decide)
  have hreads : Reads "S a\r\n\nS".toList [⟨"S", ["a"]⟩, ⟨"S", []⟩] :=
    .next hSa (.single (c := '\r') rfl) <| .next (.blank .nil) (.single (c := '\n') rfl) <|
      .next (.blank .nil) (.single (c := '\n') rfl) <| .last hS
  exact ⟨hfeed, happend "S a\r" "\n" "\nS" hfeed, hreads, hunique _ _ hreads⟩

end ContextFree.Text
