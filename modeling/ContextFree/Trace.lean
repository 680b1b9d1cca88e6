import ContextFree.Recognition.Verdict
import ContextFree.Text.File

/-!
# Traces

A *trace* tells what was done while a grammar was loaded or built and a word was
recognized.  It is a list of events.  A *span* is an activity with a beginning
and an end, and the events between the two belong to it.

* Loading a file is a span.  Within it the grammar is built, if the file could
  be read.
* Building a grammar is a span.  Within it the size of the vocabulary and the
  start symbol are told, if there was a production.
* Recognizing a word is a span.  Within it every use of an item is told, and last
  the verdict with the sizes of the cells.

An event is one line of text.  The uses of single items are told at the level
`TRACE` and all else at the level `DEBUG`.
-/

namespace ContextFree

/-- An activity with a beginning and an end. -/
inductive Span where
  /-- Loading the grammar file at a path. -/
  | load (path : String)
  /-- Building a grammar from so many productions. -/
  | build (productions : Nat)
  /-- Recognizing a word of so many tokens. -/
  | recognize (length : Nat)
deriving DecidableEq, Repr

/-- Something told in a trace. -/
inductive Event where
  | opened (span : Span)
  | closed (span : Span)
  /-- A grammar was built. -/
  | built (nonterminals terminals : Nat) (start : Symbol)
  /-- An item, shown as it was taken, was used at a position. -/
  | used (kind : StepKind) (position : Nat) (item : String)
  /-- A word was recognized, with these sizes of its cells. -/
  | finished (accepted : Bool) (sizes : List Nat)
deriving DecidableEq, Repr

/-! ## Lines -/

namespace Span

def name : Span → String
  | load _ => "grammar_from_path"
  | build _ => "grammar_new"
  | recognize _ => "recognize"

/-- What is told of an activity when it begins. -/
def detail : Span → String
  | load path => "path=" ++ path
  | build productions => "productions=" ++ toString productions
  | recognize length => "len=" ++ toString length

/-- The events of an activity, with its beginning and its end around them. -/
def around (span : Span) (events : List Event) : List Event :=
  .opened span :: events ++ [.closed span]

end Span

def StepKind.name : StepKind → String
  | predict => "predict"
  | complete => "complete"
  | scan => "scan"

/-- A list of numbers in brackets, with a comma and a space between neighbours. -/
def bracketed (ns : List Nat) : String := "[" ++ ", ".intercalate (ns.map toString) ++ "]"

/-- The line of an event. -/
def Event.line : Event → String
  | opened span => "open DEBUG " ++ span.name ++ " " ++ span.detail
  | closed span => "close " ++ span.name
  | built nonterminals terminals start =>
    "DEBUG built grammar nonterminals=" ++ toString nonterminals ++
      " terminals=" ++ toString terminals ++ " start=" ++ start
  | used kind position item =>
    "TRACE " ++ kind.name ++ " pos=" ++ toString position ++ " item=" ++ item
  | finished accepted sizes =>
    "DEBUG recognition finished accepted=" ++ toString accepted ++ " cells=" ++ bracketed sizes

/-! ## Activities -/

namespace Grammar

/-- The trace of building a grammar from its productions. -/
def buildTrace (ps : List Production) : List Event :=
  (Span.build ps.length).around <|
    match ofProductions ps with
    | .error _ => []
    | .ok g => [.built g.nonterminals.length g.terminals.length g.start]

/-- The trace of loading the grammar that a path leads to. -/
def loadTrace (path : String) (target : PathTarget) : List Event :=
  (Span.load path).around <|
    match target.read with
    | .error _ => []
    | .ok text => buildTrace (Text.productions text)

/-- The event that tells of a step. -/
def stepEvent? (g : Grammar) (step : Step) : Option Event :=
  (step.item.display? g).map (.used step.kind step.position)

/-- The trace of recognizing a word. -/
def recognitionTrace (g : Grammar) (word : List Symbol) : List Event :=
  let s := g.run word
  (Span.recognize word.length).around <|
    s.steps.toList.filterMap g.stepEvent? ++ [.finished (g.accepts s.chart) s.chart.sizes]

end Grammar

end ContextFree
