import ContextFree.Text.Layout
import ContextFree.Production

/-!
# Splitting at patterns

The separators of a text can be described by *patterns*.  A pattern is tried at
the front of a list of characters and may match there in several ways.  The ways
come in an order: of two alternatives the first is preferred, and of two runs the
longer.  Only the preferred way counts.

A list is *split* at a pattern from left to right.  Where the pattern matches, a
piece ends there and the next piece begins behind the match.  Where it does not,
the piece goes on with one more character.

`productionsByPattern` reads a grammar text with two patterns, one for breaks and
one for the space between words.  A carriage return and the line feed behind it
are one break, because the pair is the first alternative.  Among the characters of
the space are four that end a line.  They are never met, as it is lines that are
split at spaces.
-/

namespace ContextFree.Text

/-- What separates pieces.  No pattern matches without a character. -/
inductive Pattern where
  /-- One of the characters. -/
  | oneOf (chars : List Char)
  /-- One or more of the characters. -/
  | run (chars : List Char)
  /-- The first pattern and then the second. -/
  | seq (p q : Pattern)
  /-- The first pattern, or else the second. -/
  | either (p q : Pattern)
deriving DecidableEq, Repr

namespace Pattern

/-- What is left behind the runs at the front, the longest run first. -/
def restsOfRun (chars : List Char) : List Char → List (List Char)
  | [] => []
  | c :: cs => if c ∈ chars then restsOfRun chars cs ++ [cs] else []

/-- What is left behind the matches at the front, the preferred match first. -/
def rests : Pattern → List Char → List (List Char)
  | oneOf _, [] => []
  | oneOf chars, c :: cs => if c ∈ chars then [cs] else []
  | run chars, cs => restsOfRun chars cs
  | seq p q, cs => (p.rests cs).flatMap q.rests
  | either p q, cs => p.rests cs ++ q.rests cs

/-- What is left behind the preferred match. -/
def rest? (p : Pattern) (cs : List Char) : Option (List Char) := (p.rests cs).head?

variable {p : Pattern} {chars cs rest : List Char} {c : Char}

theorem length_lt_of_mem_restsOfRun (h : rest ∈ restsOfRun chars cs) :
    rest.length < cs.length := by
  induction cs with
  | nil => cases h
  | cons c cs ih =>
    rw [restsOfRun] at h
    split at h
    · rcases List.mem_append.1 h with hlonger | hone
      · exact Nat.lt_succ_of_lt (ih hlonger)
      · obtain rfl := List.mem_singleton.1 hone
        exact Nat.lt_succ_self _
    · cases h

/-- A match takes at least one character. -/
theorem length_lt_of_mem_rests (h : rest ∈ p.rests cs) : rest.length < cs.length := by
  induction p generalizing cs rest with
  | oneOf chars =>
    cases cs with
    | nil => cases h
    | cons c cs =>
      rw [rests] at h
      split at h
      · obtain rfl := List.mem_singleton.1 h
        exact Nat.lt_succ_self _
      · cases h
  | run chars => exact length_lt_of_mem_restsOfRun h
  | seq p q hp hq =>
    obtain ⟨mid, hmid, hrest⟩ := List.mem_flatMap.1 h
    exact Nat.lt_trans (hq hrest) (hp hmid)
  | either p q hp hq => exact (List.mem_append.1 h).elim hp hq

theorem length_lt_of_rest? (h : p.rest? cs = some rest) : rest.length < cs.length :=
  length_lt_of_mem_rests (List.mem_of_head? h)

/-- The pieces between the matches, from left to right. -/
def split (p : Pattern) : List Char → List (List Char)
  | [] => [[]]
  | c :: cs =>
    match h : p.rest? (c :: cs) with
    | some rest =>
      have := length_lt_of_rest? h
      [] :: split p rest
    | none => (split p cs).modifyHead (c :: ·)
termination_by cs => cs.length
decreasing_by
  · assumption
  · exact Nat.lt_succ_self cs.length

theorem split_nil : p.split [] = [[]] := by rw [split]

theorem split_of_rest? (h : p.rest? (c :: cs) = some rest) :
    p.split (c :: cs) = [] :: p.split rest := by
  rw [split]
  split
  · next found hfound =>
    obtain rfl := Option.some.inj (h.symm.trans hfound)
    rfl
  · next hnone => rw [h] at hnone; cases hnone

theorem split_of_rest?_eq_none (h : p.rest? (c :: cs) = none) :
    p.split (c :: cs) = (p.split cs).modifyHead (c :: ·) := by
  rw [split]
  split
  · next hfound => rw [h] at hfound; cases hfound
  · rfl

/-- A carriage return and a line feed, or else one of the characters that end a
line. -/
def lineBreak : Pattern := .either (.seq (.oneOf ['\r']) (.oneOf ['\n'])) (.oneOf breaks)

/-- The characters of the space between words. -/
def spaceChars : List Char := [' ', '\t', '\n', '\x0b', '\x0c', '\r']

/-- A run of them. -/
def spaces : Pattern := .run spaceChars

end Pattern

/-- The production with the first word on its left and the others on its right.
Without a word the left-hand side is empty. -/
def ofWords : List (List Char) → Production
  | [] => ⟨"", []⟩
  | lhs :: rhs => ⟨.ofList lhs, rhs.map .ofList⟩

/-- The productions of a text that is split at breaks, trimmed, and split at
spaces. -/
def productionsByPattern (text : String) : List Production :=
  (((Pattern.lineBreak.split text.toList).map trim).filter (· ≠ [])).map fun line =>
    ofWords (Pattern.spaces.split line)

end ContextFree.Text
