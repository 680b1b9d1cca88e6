import ContextFree.Proofs.Encoding
import ContextFree.Proofs.Reading
import ContextFree.Text.File

/-!
# What comes of a file

Loading a file ends in one of three ways, and the bytes of the file tell which
(`Grammar.load_file_outcomes`).

The bytes are first of all a text or no text, and that is settled by the encoding
alone.  A text has no productions exactly when all its characters are spacing
(`listed_eq_nil_iff`).  That does not depend on the lines, although padding and
blanks are looked for within lines and are not the same characters: by the
format, a line holds a production exactly when some character on it is above the
space, and the characters between lines are spacing too.

A text that begins with any other character has a first production, and the
character is the first of its left-hand side.  Whatever the character is, the
rest is read in the same way (`exists_listed_cons`), so a byte order mark has no
meaning of its own.
-/

namespace ContextFree.Text

variable {c : Char} {cs brk line : List Char} {ps : List Production} {found : Option Production}

/-! ## Texts without words -/

theorem isSpacing_iff : IsSpacing c ↔ isPad c = true ∨ isBreak c = true := by
  have hpad : isPad c = true ↔ c ≤ ' ' := decide_eq_true_iff
  have hbreak : isBreak c = true ↔ c ∈ breaks := decide_eq_true_iff
  rw [hpad, hbreak]
  constructor
  · rintro (h | rfl | rfl | rfl)
    · exact .inl h
    all_goals exact .inr (by simp [breaks])
  · rintro (h | h)
    · exact .inl h
    · simp only [breaks, List.mem_cons, List.not_mem_nil, or_false] at h
      -- The first four breaks are below the space.
      rcases h with rfl | rfl | rfl | rfl | rfl | rfl | rfl
      all_goals simp [IsSpacing]

theorem not_isSpacing_iff : ¬ IsSpacing c ↔ isPad c = false ∧ isBreak c = false := by
  rw [isSpacing_iff, not_or, Bool.not_eq_true, Bool.not_eq_true]

theorem IsLineBreak.isSpacing (h : IsLineBreak brk) : ∀ c ∈ brk, IsSpacing c := by
  cases h with
  | single hc =>
    intro d hd
    exact List.mem_singleton.1 hd ▸ isSpacing_iff.2 (.inr hc)
  | pair => simp [IsSpacing]

/-- Words do not begin with a character of the padding, so a line without a
production is all padding. -/
theorem ReadsLine.eq_none_iff (h : ReadsLine line found) :
    found = none ↔ ∀ c ∈ line, IsSpacing c := by
  cases h with
  | blank hpad => exact ⟨fun _ c hc => isSpacing_iff.2 (.inl (hpad c hc).1), fun _ => rfl⟩
  | words _ _ hwords hhead =>
    refine iff_of_false (fun hnone => by cases hnone) fun hall => ?_
    obtain ⟨c, cs, rfl⟩ := List.exists_cons_of_ne_nil hwords.ne_nil
    have hbreak : isBreak c = false := hwords.breakFree c (List.mem_cons_self ..)
    exact not_isSpacing_iff.2 ⟨hhead c rfl, hbreak⟩ (hall c (by simp))

theorem Reads.eq_nil_iff (h : Reads cs ps) : ps = [] ↔ ∀ c ∈ cs, IsSpacing c := by
  induction h with
  | last hline => rw [Option.toList_eq_nil_iff, hline.eq_none_iff]
  | next hline hbrk _ ih =>
    rw [List.append_eq_nil_iff, Option.toList_eq_nil_iff, hline.eq_none_iff, ih,
      List.forall_mem_append, List.forall_mem_append, and_iff_left hbrk.isSpacing]

/-- A text without productions is told by its characters alone. -/
theorem listed_eq_nil_iff (cs : List Char) : listed cs = [] ↔ ∀ c ∈ cs, IsSpacing c :=
  (reads_iff.2 rfl).eq_nil_iff

/-! ## The character in front -/

theorem exists_pieces_cons {α : Type} (q : α → Bool) (xs : List α) :
    ∃ ys zss, ∀ x, q x = false → pieces q (x :: xs) = (x :: ys) :: zss := by
  obtain ⟨ys, zss, h⟩ := List.exists_cons_of_ne_nil (pieces_ne_nil (p := q) xs)
  refine ⟨ys, zss, fun x hx => ?_⟩
  rw [pieces, if_neg (Bool.eq_false_iff.1 hx), h]
  rfl

/-- What is above the space stays in front of the trimmed line. -/
theorem exists_trim_cons (line : List Char) :
    ∃ kept, ∀ c, isPad c = false → trim (c :: line) = c :: kept := by
  refine ⟨(line.reverse.dropWhile isPad).reverse, fun c hc => ?_⟩
  have hc' : ¬ isPad c = true := Bool.eq_false_iff.1 hc
  rw [trim, List.dropWhile_cons_of_neg hc', List.reverse_cons, List.dropWhile_append]
  split
  · next h => rw [List.isEmpty_iff.1 h, List.dropWhile_cons_of_neg hc']; rfl
  · rw [List.reverse_append]; rfl

theorem exists_productionOf?_cons (line : List Char) :
    ∃ w rhs, ∀ c, isPad c = false →
      productionOf? (c :: line) = some ⟨.ofList (c :: w), rhs⟩ := by
  obtain ⟨kept, htrim⟩ := exists_trim_cons line
  obtain ⟨w, ws, hpieces⟩ := exists_pieces_cons isBlank kept
  refine ⟨w, (ws.filter (· ≠ [])).map .ofList, fun c hc => ?_⟩
  refine productionOf?_of_words ?_
  rw [htrim c hc, words, hpieces c (isBlank_of_isPad hc)]
  exact List.filter_cons_of_pos (decide_eq_true (List.cons_ne_nil c w))

/-- A character in front that is not spacing is the first of the first symbol,
and what else is read does not depend on it. -/
theorem exists_listed_cons (cs : List Char) :
    ∃ w rhs ps, ∀ c, ¬ IsSpacing c → listed (c :: cs) = ⟨.ofList (c :: w), rhs⟩ :: ps := by
  obtain ⟨line, lines, hpieces⟩ := exists_pieces_cons isBreak cs
  obtain ⟨w, rhs, hline⟩ := exists_productionOf?_cons line
  refine ⟨w, rhs, lines.filterMap productionOf?, fun c hc => ?_⟩
  obtain ⟨hpad, hbreak⟩ := not_isSpacing_iff.1 hc
  rw [listed_eq, hpieces c hbreak, List.filterMap_cons, hline c hpad]

end ContextFree.Text

namespace ContextFree.Grammar

open Text

variable {bytes : ByteArray} {text : String} {g : Grammar} {e : GrammarError}

/-! ## Loading -/

theorem ofText_eq_error_iff : ofText text = .error e ↔ ∀ c ∈ text.toList, IsSpacing c :=
  ofProductions_eq_error_iff.trans (listed_eq_nil_iff text.toList)

theorem exists_ofText_eq_ok (h : ¬ ∀ c ∈ text.toList, IsSpacing c) : ∃ g, ofText text = .ok g := by
  cases hread : ofText text with
  | error e => exact absurd (ofText_eq_error_iff.1 hread) h
  | ok g => exact ⟨g, rfl⟩

theorem load_file_of_fromUTF8?_eq_none (h : String.fromUTF8? bytes = none) :
    load (.file bytes) = .error (.unreadable .invalidData) := by
  rw [load, PathTarget.read, h]

/-- A file with the bytes of a text holds the grammar of the text, and fails as
the text does. -/
theorem load_file_toUTF8 (text : String) :
    load (.file text.toUTF8) = (ofText text).mapError .invalid := by
  rw [load, PathTarget.read, fromUTF8?_eq_some_iff.2 rfl]
  cases h : ofText text with
  | error e => simp only [h]; rfl
  | ok g => simp only [h]; rfl

theorem load_file_of_ofText (h : ofText text = .ok g) : load (.file text.toUTF8) = .ok g := by
  rw [load_file_toUTF8, h]
  rfl

theorem load_file_eq_invalidData_iff :
    load (.file bytes) = .error (.unreadable .invalidData) ↔
      ¬ ∃ text : String, text.toUTF8 = bytes := by
  refine ⟨?_, fun h => load_file_of_fromUTF8?_eq_none (fromUTF8?_eq_none_iff.2 h)⟩
  rintro h ⟨text, rfl⟩
  rw [load_file_toUTF8] at h
  cases hread : ofText text with
  | error e => rw [hread] at h; cases h
  | ok g => rw [hread] at h; cases h

theorem load_file_eq_noProductions_iff :
    load (.file text.toUTF8) = .error (.invalid .noProductions) ↔
      ∀ c ∈ text.toList, IsSpacing c := by
  rw [load_file_toUTF8]
  cases hread : ofText text with
  | error e =>
    cases e with
    | noProductions => exact iff_of_true rfl (ofText_eq_error_iff.1 hread)
  | ok g =>
    refine iff_of_false (fun h => by cases h) fun hall => ?_
    rw [ofText_eq_error_iff (e := .noProductions) |>.2 hall] at hread
    cases hread

/-- A byte order mark at the front is read as any other character there. -/
theorem load_file_mark {cs : List Char} (h : text.toList = '\ufeff' :: cs) :
    ∃ w rhs ps,
      (∃ g, load (.file text.toUTF8) = .ok g ∧
        g.productions = ⟨.ofList ('\ufeff' :: w), rhs⟩ :: ps) ∧
      ∀ c, ¬ IsSpacing c →
        Text.productions (.ofList (c :: cs)) = ⟨.ofList (c :: w), rhs⟩ :: ps := by
  have hmark : ¬ IsSpacing '\ufeff' := by simp [IsSpacing]
  obtain ⟨w, rhs, ps, hfront⟩ := exists_listed_cons cs
  obtain ⟨g, hread⟩ : ∃ g, ofText text = .ok g :=
    exists_ofText_eq_ok fun hall => hmark (hall _ (h ▸ List.mem_cons_self ..))
  refine ⟨w, rhs, ps, ⟨g, load_file_of_ofText hread, ?_⟩, fun c hc => ?_⟩
  · have hps : Text.productions text = listed ('\ufeff' :: cs) := congrArg listed h
    rw [productions_of_ofProductions_eq_ok hread, hps, hfront _ hmark]
  · have hps : Text.productions (.ofList (c :: cs)) = listed (c :: cs) :=
      congrArg listed String.toList_ofList
    rw [hps, hfront c hc]

/-- The bytes of a file decide what comes of loading it.  They are no text, which
is said of the bytes alone; or they are one text, with spacing only; or they are
one text with other characters, and the file holds the grammar of this text.  A
byte order mark at the front is one of the other characters, and what is read
behind it is what would be read behind another. -/
theorem load_file_outcomes (bytes : ByteArray) :
    (load (.file bytes) = .error (.unreadable .invalidData) ↔
      ¬ ∃ text : String, text.toUTF8 = bytes) ∧
    ((∃ text : String, text.toUTF8 = bytes) ↔ IsTextBytes bytes.data.toList) ∧
    ∀ text : String, text.toUTF8 = bytes →
      (∀ other : String, other.toUTF8 = bytes → other = text) ∧
      (load (.file bytes) = .error (.invalid .noProductions) ↔
        ∀ c ∈ text.toList, IsSpacing c) ∧
      ((¬ ∀ c ∈ text.toList, IsSpacing c) →
        ∃ g, ofText text = .ok g ∧ load (.file bytes) = .ok g) ∧
      ∀ cs, text.toList = '\ufeff' :: cs → ∃ w rhs ps,
        (∃ g, load (.file bytes) = .ok g ∧
          g.productions = ⟨.ofList ('\ufeff' :: w), rhs⟩ :: ps) ∧
        ∀ c, ¬ IsSpacing c →
          Text.productions (.ofList (c :: cs)) = ⟨.ofList (c :: w), rhs⟩ :: ps := by
  refine ⟨load_file_eq_invalidData_iff, exists_toUTF8_eq_iff, ?_⟩
  rintro text rfl
  refine ⟨fun other h => String.toByteArray_inj.1 h, load_file_eq_noProductions_iff, fun h => ?_,
    fun cs h => load_file_mark h⟩
  obtain ⟨g, hread⟩ := exists_ofText_eq_ok h
  exact ⟨g, hread, load_file_of_ofText hread⟩

/-- The bytes of a surrogate, of a next-line character with other spacing, and of a
mark with a no-break space behind it. -/
theorem load_file_outcomes_marked :
    load (.file ⟨#[0xed, 0xa0, 0x80]⟩) = .error (.unreadable .invalidData) ∧
      "\u0085 \u2028".toUTF8 = ⟨#[0xc2, 0x85, 0x20, 0xe2, 0x80, 0xa8]⟩ ∧
      load (.file ⟨#[0xc2, 0x85, 0x20, 0xe2, 0x80, 0xa8]⟩) = .error (.invalid .noProductions) ∧
      "\ufeffS \u00a0".toUTF8 = ⟨#[0xef, 0xbb, 0xbf, 0x53, 0x20, 0xc2, 0xa0]⟩ ∧
      ∃ g, load (.file ⟨#[0xef, 0xbb, 0xbf, 0x53, 0x20, 0xc2, 0xa0]⟩) = .ok g ∧
        g.productions = [⟨"\ufeffS", ["\u00a0"]⟩] := by
  obtain ⟨hsurrogate, hbytes, -⟩ := load_file_outcomes ⟨#[0xed, 0xa0, 0x80]⟩
  have hno : ¬ IsTextBytes [0xed, 0xa0, 0x80] := not_isTextBytes_surrogate (by decide) _
  have hspacing : "\u0085 \u2028".toUTF8 = ⟨#[0xc2, 0x85, 0x20, 0xe2, 0x80, 0xa8]⟩ := by decide
  have hmark : "\ufeffS \u00a0".toUTF8 = ⟨#[0xef, 0xbb, 0xbf, 0x53, 0x20, 0xc2, 0xa0]⟩ := by decide
  obtain ⟨-, hempty, -⟩ := (load_file_outcomes _).2.2 _ hspacing
  obtain ⟨-, -, hsome, -⟩ := (load_file_outcomes _).2.2 _ hmark
  obtain ⟨g, hread, hload⟩ := hsome (by simp [IsSpacing])
  refine ⟨hsurrogate.2 fun h => hno (hbytes.1 h), hspacing, hempty.2 (by simp [IsSpacing]), hmark,
    g, hload, ?_⟩
  rw [productions_of_ofProductions_eq_ok hread]
  decide

end ContextFree.Grammar
