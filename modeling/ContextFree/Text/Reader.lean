import ContextFree.Text.Layout
import ContextFree.Grammar.Basic

/-!
# Reading a grammar

A grammar text holds one production on each line that is not blank.  The first
word is the left-hand side and the other words are the right-hand side, so a
line of one word is an empty production.  There are no comments and no escapes:
every word is a symbol as it stands.

Reading never fails.  A text without words has no productions, and that is what
keeps it from being a grammar.

A text can also be split at patterns, and has the same productions then
(`Text.productions_eq_productionsByPattern`).
-/

namespace ContextFree.Text

/-- The production on a line, unless the line is blank. -/
def productionOf? (line : List Char) : Option Production :=
  match (words (trim line)).map String.ofList with
  | [] => none
  | lhs :: rhs => some ⟨lhs, rhs⟩

/-- The productions of a text, line by line. -/
def productions (text : String) : List Production := (lines text.toList).filterMap productionOf?

end ContextFree.Text

namespace ContextFree.Grammar

/-- The grammar written in a text. -/
def ofText (text : String) : Except GrammarError Grammar := ofProductions (Text.productions text)

/-- The text of a grammar: the lines of its productions in order. -/
def text (g : Grammar) : String := String.join (g.productions.map Production.line)

end ContextFree.Grammar
