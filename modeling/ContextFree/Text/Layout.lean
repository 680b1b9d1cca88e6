/-!
# The layout of a text

A text is a list of characters.  It falls into *lines* at its breaks, a line
loses the padding at its ends, and what is left falls into *words* at its
blanks.

* The *breaks* are the line feed, the vertical tab, the form feed, the carriage
  return, the next-line character and the line and paragraph separators.  A
  carriage return and the line feed after it are one break.
* The *padding* is every character up to the space, so all control characters
  below it are among it.
* The *blanks* are the space and the tab.

Between the ends of a line a control character that is neither break nor blank
belongs to a word.  A no-break space is neither padding nor blank anywhere.
-/

namespace ContextFree.Text

/-- The characters that end a line. -/
def breaks : List Char := ['\n', '\x0b', '\x0c', '\r', '\u0085', '\u2028', '\u2029']

/-- Whether a character ends a line. -/
def isBreak (c : Char) : Bool := c ∈ breaks

/-- Whether a character is dropped at the ends of a line. -/
def isPad (c : Char) : Bool := c ≤ ' '

/-- Whether a character parts words. -/
def isBlank (c : Char) : Bool := c == ' ' || c == '\t'

/-- The pieces of a list between the elements that satisfy `p`.  There is an
empty piece between two such elements in a row, before one at the front and
after one at the end. -/
def pieces {α : Type} (p : α → Bool) : List α → List (List α)
  | [] => [[]]
  | x :: xs => if p x then [] :: pieces p xs else (pieces p xs).modifyHead (x :: ·)

/-- Drops each carriage return that stands right before a line feed, so that
the two are one break. -/
def mergeReturns : List Char → List Char
  | '\r' :: '\n' :: cs => '\n' :: mergeReturns cs
  | c :: cs => c :: mergeReturns cs
  | [] => []

/-- The lines of a text, without their breaks. -/
def lines (text : List Char) : List (List Char) := pieces isBreak (mergeReturns text)

/-- A line without the padding at its ends. -/
def trim (line : List Char) : List Char :=
  ((line.dropWhile isPad).reverse.dropWhile isPad).reverse

/-- The words of a line: its longest runs without a blank. -/
def words (line : List Char) : List (List Char) := (pieces isBlank line).filter (· ≠ [])

/-! ## Pieces -/

variable {α : Type} {p : α → Bool}

theorem pieces_ne_nil (xs : List α) : pieces p xs ≠ [] := by
  induction xs with
  | nil => exact List.cons_ne_nil _ _
  | cons x xs ih =>
    rw [pieces]
    split
    · exact List.cons_ne_nil _ _
    · cases h : pieces p xs with
      | nil => exact absurd h ih
      | cons y ys => exact List.cons_ne_nil _ _

/-- A list in which nothing satisfies `p` is in one piece. -/
theorem pieces_eq_singleton {xs : List α} (h : ∀ x ∈ xs, p x = false) :
    pieces p xs = [xs] := by
  induction xs with
  | nil => rfl
  | cons x xs ih =>
    have hx : ¬ p x = true := by simp [h x (List.mem_cons_self ..)]
    rw [pieces, if_neg hx, ih fun y hy => h y (List.mem_cons_of_mem _ hy)]
    rfl

/-- In a piece nothing satisfies `p`. -/
theorem forall_mem_pieces {xs : List α} : ∀ ys ∈ pieces p xs, ∀ y ∈ ys, p y = false := by
  induction xs with
  | nil =>
    intro ys hys y hy
    obtain rfl := List.mem_singleton.1 hys
    cases hy
  | cons x xs ih =>
    intro ys hys y hy
    rw [pieces] at hys
    split at hys
    · rcases List.mem_cons.1 hys with rfl | hys
      · cases hy
      · exact ih ys hys y hy
    · next hx =>
      obtain ⟨zs, zss, hpieces⟩ := List.exists_cons_of_ne_nil (pieces_ne_nil (p := p) xs)
      rw [hpieces] at ih
      rw [hpieces, List.modifyHead_cons] at hys
      rcases List.mem_cons.1 hys with rfl | hys
      · rcases List.mem_cons.1 hy with rfl | hy
        · exact Bool.eq_false_iff.2 hx
        · exact ih zs (List.mem_cons_self ..) y hy
      · exact ih ys (List.mem_cons_of_mem _ hys) y hy

/-- What stands before and after an element that satisfies `p` is cut into
pieces apart. -/
theorem pieces_append_cons {x : α} (hx : p x = true) (xs ys : List α) :
    pieces p (xs ++ x :: ys) = pieces p xs ++ pieces p ys := by
  induction xs with
  | nil => simp only [List.nil_append, pieces, if_pos hx, List.singleton_append]
  | cons z zs ih =>
    rw [List.cons_append, pieces, pieces, ih]
    split
    · rfl
    · cases h : pieces p zs with
      | nil => exact absurd h (pieces_ne_nil zs)
      | cons w ws => rfl

example : lines ['a', '\r', '\n', '\n', 'b'] = [['a'], [], ['b']] := by decide

example : words (trim ['\x01', 'a', '\t', ' ', '\x01', 'b', ' ']) = [['a'], ['\x01', 'b']] := by
  decide

end ContextFree.Text
