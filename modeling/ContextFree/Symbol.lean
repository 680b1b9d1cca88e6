/-!
# Symbols

A *symbol* is any text, the empty one included.  Whether it is a terminal or a
nonterminal is decided by the grammar it occurs in and not by the symbol.

A list of symbols is written with one space between neighbours.  Nothing is
quoted, so the written form determines the list only where no symbol holds a
space.
-/

namespace ContextFree

/-- A grammar symbol. -/
abbrev Symbol := String

namespace Symbol

/-- The symbols with one space between neighbours. -/
def spaced (symbols : List Symbol) : String := " ".intercalate symbols

/-- The symbols in ascending order of their code points, repetitions kept. -/
def sorted (symbols : List Symbol) : List Symbol := symbols.mergeSort fun s t => decide (s ≤ t)

end Symbol

end ContextFree
