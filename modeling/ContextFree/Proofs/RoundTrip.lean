import ContextFree.Proofs.Reading

/-!
# Writing a grammar and reading it again

The text of a grammar has the line of each production.  Nothing is quoted, so
the grammar is read back only if every production is clean
(`Grammar.ofText_text_iff_clean`).

*If they are clean*, each line holds its production, and the text is put together
as the format says (`Text.reads_text`).

*If the grammar is read back*, its productions are those read in a text, and
these are clean, whatever the text is (`Text.clean_of_mem_productions`).

So a grammar that came from a text can be written and read again, and its text
is the same from then on.
-/

namespace ContextFree

namespace Text

variable {ps : List Production} {p : Production} {cs : List Char}

/-- The lines of clean productions are a text of the format. -/
theorem reads_text (h : ∀ p ∈ ps, Clean p) :
    Reads (String.join (ps.map Production.line)).toList ps := by
  induction ps with
  | nil => exact .last (.blank .nil)
  | cons p ps ih =>
    have hline := (h p (List.mem_cons_self ..)).readsLine
    have hrest := ih fun q hq => h q (List.mem_cons_of_mem _ hq)
    have hnext := Reads.next hline (.single (c := '\n') rfl) hrest
    rw [List.map_cons, String.join_cons, Production.line, String.toList_append,
      String.toList_append]
    exact hnext

theorem Reads.clean (h : Reads cs ps) : ∀ p ∈ ps, Clean p := by
  have hline : ∀ {line found}, ReadsLine line found → ∀ p ∈ found.toList, Clean p := by
    intro line found h p hp
    obtain rfl := Option.mem_toList.1 hp
    exact clean_iff.2 ⟨line, h⟩
  induction h with
  | last h => exact hline h
  | next h _ _ ih =>
    intro p hp
    rcases List.mem_append.1 hp with hfirst | hrest
    · exact hline h p hfirst
    · exact ih p hrest

/-- What is read in a text is clean. -/
theorem clean_of_mem_productions {text : String} (hp : p ∈ productions text) : Clean p :=
  (reads_iff.2 rfl : Reads text.toList (productions text)).clean p hp

end Text

namespace Grammar

open Text (Clean)

variable {ps : List Production} {g g' : Grammar} {text : String}

theorem beq_iff : (g == g') = true ↔ g.productions = g'.productions := by
  show (g.productions == g'.productions) = true ↔ _
  exact beq_iff_eq

/-- The productions read in the text of a grammar are its own, if they are
clean. -/
theorem productions_text (h : ∀ p ∈ g.productions, Clean p) :
    Text.productions g.text = g.productions :=
  Text.reads_iff.1 (Text.reads_text h)

/-- A grammar of clean productions is read back from its text. -/
theorem ofText_text (h : ofProductions ps = .ok g) (hclean : ∀ p ∈ g.productions, Clean p) :
    ofText g.text = .ok g := by
  rw [ofText, productions_text hclean, productions_of_ofProductions_eq_ok h, h]

theorem clean_of_ofText (h : ofText text = .ok g) : ∀ p ∈ g.productions, Clean p := by
  intro p hp
  rw [productions_of_ofProductions_eq_ok h] at hp
  exact Text.clean_of_mem_productions hp

/-- A grammar is read back from its text exactly when its productions are clean.
Those read in any text are, so what was read once is read back, with the same
text. -/
theorem ofText_text_iff_clean :
    (∀ ps g, ofProductions ps = .ok g →
      ((∃ g', ofText g.text = .ok g' ∧ (g' == g) = true) ↔ ∀ p ∈ g.productions, Clean p)) ∧
      (∀ text, ∀ p ∈ Text.productions text, Clean p) ∧
      ∀ text g, ofText text = .ok g →
        ∃ g', ofText g.text = .ok g' ∧ (g' == g) = true ∧ g'.text = g.text := by
  refine ⟨fun ps g h => ⟨?_, fun hclean => ?_⟩, fun text p hp => ?_, fun text g h => ?_⟩
  · rintro ⟨g', hread, heq⟩
    rw [← beq_iff.1 heq]
    exact clean_of_ofText hread
  · exact ⟨g, ofText_text h hclean, beq_iff.2 rfl⟩
  · exact Text.clean_of_mem_productions hp
  · exact ⟨g, ofText_text h (clean_of_ofText h), beq_iff.2 rfl, rfl⟩

/-- `S -> \x01 a`, with a control character that stands inside the line. -/
def controlInside : List Production := [⟨"S", ["\x01", "a"]⟩]

/-- `S -> a \x01`, with the control character at the end of the line. -/
def controlAtEnd : List Production := [⟨"S", ["a", "\x01"]⟩]

/-- The same symbols come back in the one order and not in the other. -/
theorem ofText_text_iff_clean_controls :
    ofProductions controlInside = .ok (ofStart "S" controlInside) ∧
      ofText "\tS \x01\t a\x01\r\n" = .ok (ofStart "S" controlInside) ∧
      (∃ g', ofText (ofStart "S" controlInside).text = .ok g' ∧
        (g' == ofStart "S" controlInside) = true ∧
        g'.text = (ofStart "S" controlInside).text) ∧
      ofProductions controlAtEnd = .ok (ofStart "S" controlAtEnd) ∧
      ¬ ∃ g', ofText (ofStart "S" controlAtEnd).text = .ok g' ∧
        (g' == ofStart "S" controlAtEnd) = true := by
  obtain ⟨hclean, -, hagain⟩ := ofText_text_iff_clean
  have hread : Text.productions "\tS \x01\t a\x01\r\n" = controlInside := by decide +kernel
  have htext : ofText "\tS \x01\t a\x01\r\n" = .ok (ofStart "S" controlInside) := by
    rw [ofText, hread]
    rfl
  refine ⟨rfl, htext, hagain _ _ htext, rfl, fun hback => ?_⟩
  have hno : ¬ ∀ p ∈ controlAtEnd, Clean p := by decide
  exact hno ((hclean controlAtEnd _ rfl).1 hback)

end Grammar

end ContextFree
