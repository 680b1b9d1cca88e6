import ContextFree.Text.Layout
import ContextFree.Production

/-!
# The format of grammar texts

What a grammar text is, said without taking it apart.

A text is made of lines with a break between neighbours.  A line is either
padding alone, or padding, words with blanks between neighbours, and padding.
`Reads` relates the characters of a text to the productions of its lines.  One
text may be made up in more than one way: a carriage return and a line feed are
one break, or two with an empty line between them.

A text without a word is *spacing* from the first character to the last, whatever
its lines are.

A production is *clean* when a line can hold it as it is: each symbol is a word,
and the two symbols at the ends do not lose a character to the trimming.
-/

namespace ContextFree.Text

/-- The characters of a break: one that ends a line, or the pair of a carriage
return and a line feed. -/
inductive IsLineBreak : List Char → Prop
  | single {c : Char} : isBreak c = true → IsLineBreak [c]
  | pair : IsLineBreak ['\r', '\n']

/-- Padding within a line. -/
def IsPadding (cs : List Char) : Prop := ∀ c ∈ cs, isPad c = true ∧ isBreak c = false

/-- A separator of words. -/
def IsGap (cs : List Char) : Prop := cs ≠ [] ∧ ∀ c ∈ cs, isBlank c = true

/-- A word within a line. -/
def IsWord (cs : List Char) : Prop :=
  cs ≠ [] ∧ ∀ c ∈ cs, isBlank c = false ∧ isBreak c = false

/-- Words, each but the first with a gap before it. -/
inductive SpacedWords : List Char → List (List Char) → Prop
  | one {w : List Char} : IsWord w → SpacedWords w [w]
  /-- A word, a gap and further words. -/
  | more {w gap cs : List Char} {ws : List (List Char)} :
      IsWord w → IsGap gap → SpacedWords cs ws → SpacedWords (w ++ gap ++ cs) (w :: ws)

/-- A line and the production on it, if any. -/
inductive ReadsLine : List Char → Option Production → Prop
  | blank {pad : List Char} : IsPadding pad → ReadsLine pad none
  /-- Words that neither begin nor end with a character of the padding. -/
  | words {front back cs : List Char} {lhs : List Char} {rhs : List (List Char)} :
      IsPadding front → IsPadding back → SpacedWords cs (lhs :: rhs) →
      (∀ c ∈ cs.head?, isPad c = false) → (∀ c ∈ cs.getLast?, isPad c = false) →
      ReadsLine (front ++ cs ++ back) (some ⟨.ofList lhs, rhs.map .ofList⟩)

/-- A text and the productions on its lines. -/
inductive Reads : List Char → List Production → Prop
  | last {line : List Char} {p : Option Production} : ReadsLine line p → Reads line p.toList
  /-- A line, a break and the rest of the text. -/
  | next {line brk cs : List Char} {p : Option Production} {ps : List Production} :
      ReadsLine line p → IsLineBreak brk → Reads cs ps →
      Reads (line ++ brk ++ cs) (p.toList ++ ps)

/-- The characters of texts without words: those up to the space, the next-line
character and the line and paragraph separators. -/
def IsSpacing (c : Char) : Prop := c ≤ ' ' ∨ c = '\u0085' ∨ c = '\u2028' ∨ c = '\u2029'

/-- The symbols of a production are words, the first symbol begins and the last
symbol ends with a character above the space. -/
structure Clean (p : Production) : Prop where
  words : ∀ s ∈ p.lhs :: p.rhs, IsWord s.toList
  /-- The line does not begin with padding. -/
  head : ∀ c ∈ p.lhs.toList.head?, isPad c = false
  /-- The line does not end with padding. -/
  last : ∀ s ∈ (p.lhs :: p.rhs).getLast?, ∀ c ∈ s.toList.getLast?, isPad c = false

end ContextFree.Text
