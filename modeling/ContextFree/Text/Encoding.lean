/-!
# The bytes of a text

Which bytes are the encoding of a text, said without decoding them.

A character takes one to four bytes.  Its first byte tells how many, and the
others are *tails*.  After four of the first bytes not every tail can be second:

* after `e0` and `f0` the small ones would give a number that fits into fewer
  bytes;
* after `ed` the large ones would give a surrogate, which is no character;
* after `f4` the large ones would give a number above the last code point.

For the first two reasons `c0` and `c1`, and for the third the bytes from `f5` on,
begin no character at all.  A tail does not begin one either.
-/

namespace ContextFree.Text

/-- A byte of a character behind its first. -/
def IsTail (b : UInt8) : Prop := 0x80 ≤ b ∧ b ≤ 0xbf

/-- The bytes of one character. -/
inductive IsCharBytes : List UInt8 → Prop
  | one {a : UInt8} : a ≤ 0x7f → IsCharBytes [a]
  | two {a b : UInt8} : 0xc2 ≤ a → a ≤ 0xdf → IsTail b → IsCharBytes [a, b]
  | three {a b c : UInt8} :
      0xe0 ≤ a → a ≤ 0xef → IsTail b → IsTail c →
      (a = 0xe0 → 0xa0 ≤ b) → (a = 0xed → b ≤ 0x9f) → IsCharBytes [a, b, c]
  | four {a b c d : UInt8} :
      0xf0 ≤ a → a ≤ 0xf4 → IsTail b → IsTail c → IsTail d →
      (a = 0xf0 → 0x90 ≤ b) → (a = 0xf4 → b ≤ 0x8f) → IsCharBytes [a, b, c, d]

/-- The bytes of characters one after another. -/
inductive IsTextBytes : List UInt8 → Prop
  | nil : IsTextBytes []
  | append {char rest : List UInt8} :
      IsCharBytes char → IsTextBytes rest → IsTextBytes (char ++ rest)

end ContextFree.Text
