import ContextFree.Recognition.Progress

/-!
# The verdict

A word is accepted when the last cell of its chart holds a finished item for the
start symbol that began at position `0`.  A later origin would only say that an
end piece of the word is derived, which happens when the start symbol stands on
a right-hand side.

A token that is no terminal of the grammar is never scanned, so every list of
tokens has a verdict.
-/

namespace ContextFree.Grammar

/-- The chart of a word. -/
def chart (g : Grammar) (word : List Symbol) : Chart := (g.run word).chart

/-- Whether an item derives all of a word, if it stands in the last cell. -/
def isAccepting (g : Grammar) (item : Item) : Bool :=
  item.origin == 0 && item.isDone g && item.lhs? g == some g.startId

/-- Whether a complete chart accepts its word. -/
def accepts (g : Grammar) (c : Chart) : Bool := c.last.toList.any g.isAccepting

/-- Whether a word is in the language of the grammar. -/
def recognizes (g : Grammar) (word : List Symbol) : Bool := g.accepts (g.chart word)

end ContextFree.Grammar
