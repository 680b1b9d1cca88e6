import ContextFree.Text.Encoding

/-!
# Which bytes are a text

A list of bytes encodes a text exactly when it satisfies `IsTextBytes`
(`exists_toUTF8_eq_iff`), and reading takes the encodings of texts and nothing
else (`fromUTF8?_eq_some_iff`).

Both come down to one character.

*From a character to its bytes.*  The bytes are the number of the character in
digits to the base 64, with a mark on the first that tells how many there are.
Every digit but the first is a tail.  That the number is not one of a surrogate,
and has as many bytes as it needs, is what the second byte is bounded for.

*From the bytes to a character.*  Taking the marks off gives the digits of a
number.  The bounds on the bytes say that it is the number of a character, and
that it needs this many bytes.
-/

namespace ContextFree.Text

variable {n : Nat} {a b : UInt8} {bs : List UInt8} {bytes : ByteArray} {text : String}

/-! ## Characters -/

theorem isTail_iff : IsTail b ↔ 0x80 ≤ b.toNat ∧ b.toNat ≤ 0xbf :=
  and_congr UInt8.le_iff_toNat_le UInt8.le_iff_toNat_le

/-- A digit to the base 64 with the mark of a tail. -/
theorem isTail_ofNat (n : Nat) : IsTail (UInt8.ofNat (n % 64 + 128)) := by
  rw [isTail_iff, UInt8.toNat_ofNat']
  omega

theorem ofNat_eq (h : n = b.toNat) : UInt8.ofNat n = b := by
  rw [h, UInt8.ofNat_toNat]

theorem exists_char (h : n.isValidChar) : ∃ c : Char, c.val.toNat = n := ⟨.ofNatAux n h, rfl⟩

theorem isCharBytes_utf8EncodeChar (c : Char) : IsCharBytes (String.utf8EncodeChar c) := by
  have hvalid : c.val.toNat < 0xd800 ∨ 0xdfff < c.val.toNat ∧ c.val.toNat < 0x110000 := c.valid
  rw [String.utf8EncodeChar]
  generalize c.val.toNat = n at *
  -- One case for each number of bytes.
  split
  · refine .one ?_
    simp only [UInt8.le_iff_toNat_le, UInt8.toNat_ofNat', UInt8.reduceToNat]
    omega
  split
  · refine .two ?_ ?_ (isTail_ofNat n)
    all_goals
      simp only [UInt8.le_iff_toNat_le, UInt8.toNat_ofNat', UInt8.reduceToNat]
      omega
  split
  · refine .three ?_ ?_ (isTail_ofNat _) (isTail_ofNat n) ?_ ?_
    all_goals
      simp only [UInt8.le_iff_toNat_le, ← UInt8.toNat_inj, UInt8.toNat_ofNat', UInt8.reduceToNat]
      omega
  · refine .four ?_ ?_ (isTail_ofNat _) (isTail_ofNat _) (isTail_ofNat n) ?_ ?_
    all_goals
      simp only [UInt8.le_iff_toNat_le, ← UInt8.toNat_inj, UInt8.toNat_ofNat', UInt8.reduceToNat]
      omega

theorem exists_utf8EncodeChar_eq (h : IsCharBytes bs) :
    ∃ c : Char, String.utf8EncodeChar c = bs := by
  cases h with
  | @one a ha =>
    simp only [UInt8.le_iff_toNat_le, UInt8.reduceToNat] at ha
    obtain ⟨x, hx⟩ := exists_char (n := a.toNat) (.inl (by omega))
    refine ⟨x, ?_⟩
    rw [String.utf8EncodeChar, hx, if_pos ha, UInt8.ofNat_toNat]
  | @two a b ha ha' hb =>
    simp only [isTail_iff, UInt8.le_iff_toNat_le, UInt8.reduceToNat] at ha ha' hb
    obtain ⟨x, hx⟩ := exists_char (n := (a.toNat - 0xc0) * 64 + (b.toNat - 0x80))
      (.inl (by omega))
    refine ⟨x, ?_⟩
    rw [String.utf8EncodeChar, hx, if_neg (by omega), if_pos (by omega)]
    simp only [List.cons.injEq, and_true]
    exact ⟨ofNat_eq (by omega), ofNat_eq (by omega)⟩
  | @three a b c ha ha' hb hc hlow hhigh =>
    simp only [isTail_iff, UInt8.le_iff_toNat_le, ← UInt8.toNat_inj, UInt8.reduceToNat]
      at ha ha' hb hc hlow hhigh
    obtain ⟨x, hx⟩ := exists_char
      (n := (a.toNat - 0xe0) * 4096 + (b.toNat - 0x80) * 64 + (c.toNat - 0x80))
      (by rw [Nat.isValidChar]; omega)
    refine ⟨x, ?_⟩
    rw [String.utf8EncodeChar, hx, if_neg (by omega), if_neg (by omega), if_pos (by omega)]
    simp only [List.cons.injEq, and_true]
    exact ⟨ofNat_eq (by omega), ofNat_eq (by omega), ofNat_eq (by omega)⟩
  | @four a b c d ha ha' hb hc hd hlow hhigh =>
    simp only [isTail_iff, UInt8.le_iff_toNat_le, ← UInt8.toNat_inj, UInt8.reduceToNat]
      at ha ha' hb hc hd hlow hhigh
    obtain ⟨x, hx⟩ := exists_char
      (n := (a.toNat - 0xf0) * 262144 + (b.toNat - 0x80) * 4096 + (c.toNat - 0x80) * 64 +
        (d.toNat - 0x80))
      (.inr (by omega))
    refine ⟨x, ?_⟩
    rw [String.utf8EncodeChar, hx, if_neg (by omega), if_neg (by omega), if_neg (by omega)]
    simp only [List.cons.injEq, and_true]
    exact ⟨ofNat_eq (by omega), ofNat_eq (by omega), ofNat_eq (by omega), ofNat_eq (by omega)⟩

/-! ## Texts -/

theorem isTextBytes_iff :
    IsTextBytes bs ↔ ∃ cs : List Char, cs.flatMap String.utf8EncodeChar = bs := by
  constructor
  · intro h
    induction h with
    | nil => exact ⟨[], rfl⟩
    | append hchar _ ih =>
      obtain ⟨c, rfl⟩ := exists_utf8EncodeChar_eq hchar
      obtain ⟨cs, rfl⟩ := ih
      exact ⟨c :: cs, rfl⟩
  · rintro ⟨cs, rfl⟩
    induction cs with
    | nil => exact .nil
    | cons c cs ih => exact .append (isCharBytes_utf8EncodeChar c) ih

/-- The bytes of a surrogate begin no text. -/
theorem not_isTextBytes_surrogate (hb : 0xa0 ≤ b) (bs : List UInt8) :
    ¬ IsTextBytes (0xed :: b :: bs) := by
  generalize hlist : 0xed :: b :: bs = list
  rintro (_ | ⟨hchar, -⟩)
  · cases hlist
  · cases hchar with
    | one ha => cases hlist; exact absurd ha (by decide)
    | two _ ha => cases hlist; exact absurd ha (by decide)
    | three _ _ _ _ _ hhigh =>
      cases hlist
      exact absurd (UInt8.le_trans hb (hhigh rfl)) (by decide)
    | four ha => cases hlist; exact absurd ha (by decide)

theorem toList_data_toUTF8 (text : String) :
    text.toUTF8.data.toList = text.toList.flatMap String.utf8EncodeChar := by
  have h := String.toByteArray_ofList (l := text.toList)
  rw [String.ofList_toList, List.utf8Encode] at h
  rw [String.toUTF8_eq_toByteArray, h, List.data_toByteArray]

/-- The bytes that encode a text can be told without decoding them. -/
theorem exists_toUTF8_eq_iff :
    (∃ text : String, text.toUTF8 = bytes) ↔ IsTextBytes bytes.data.toList := by
  rw [isTextBytes_iff]
  constructor
  · rintro ⟨text, rfl⟩
    exact ⟨text.toList, (toList_data_toUTF8 text).symm⟩
  · rintro ⟨cs, hcs⟩
    refine ⟨.ofList cs, ByteArray.ext (Array.toList_inj.1 ?_)⟩
    rw [toList_data_toUTF8, String.toList_ofList, hcs]

/-- What is read in bytes is the text that they encode. -/
theorem fromUTF8?_eq_some_iff : String.fromUTF8? bytes = some text ↔ text.toUTF8 = bytes := by
  rw [String.fromUTF8?]
  constructor
  · intro h
    split at h
    · obtain rfl := Option.some.inj h
      rfl
    · cases h
  · rintro rfl
    exact dif_pos text.isValidUTF8

theorem fromUTF8?_eq_none_iff :
    String.fromUTF8? bytes = none ↔ ¬ ∃ text : String, text.toUTF8 = bytes := by
  simp only [← fromUTF8?_eq_some_iff, ← Option.isSome_iff_exists, Option.not_isSome_iff_eq_none]

end ContextFree.Text
