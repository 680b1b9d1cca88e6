import ContextFree.Text.Reader

/-!
# Grammar files

A grammar file is a grammar text in UTF-8.  What a path leads to is given as a
value: nothing, a directory, or a file with certain bytes.  So loading is a
function, and what it answers can be stated for all bytes.

The bytes have to be the encoding of a text, and one text only has them as its
encoding.  Overlong forms, surrogates, numbers above the last code point and
characters cut short are no encoding of anything.  A byte order mark at the
front is a character like any other and becomes part of the first symbol.
-/

namespace ContextFree

/-- What a path leads to. -/
inductive PathTarget where
  | missing
  | directory
  /-- A file with these bytes. -/
  | file (bytes : ByteArray)

/-- Why no text could be read. -/
inductive ReadError where
  /-- The path leads to nothing. -/
  | notFound
  /-- The path leads to a directory. -/
  | isDirectory
  /-- The bytes are not the encoding of a text. -/
  | invalidData
deriving DecidableEq, Repr

/-- Why no grammar could be loaded. -/
inductive LoadError where
  /-- No text could be read. -/
  | unreadable (cause : ReadError)
  /-- The text has no grammar in it. -/
  | invalid (cause : GrammarError)
deriving DecidableEq, Repr

/-- The error in words.  A failure to read is put into words by the system that
failed, and not here. -/
def LoadError.message? : LoadError → Option String
  | .unreadable _ => none
  | .invalid cause => some ("invalid grammar: " ++ cause.message)

/-- The text that a path leads to. -/
def PathTarget.read : PathTarget → Except ReadError String
  | .missing => .error .notFound
  | .directory => .error .isDirectory
  | .file bytes =>
    match String.fromUTF8? bytes with
    | none => .error .invalidData
    | some text => .ok text

/-- The grammar that a path leads to. -/
def Grammar.load (target : PathTarget) : Except LoadError Grammar :=
  match target.read with
  | .error cause => .error (.unreadable cause)
  | .ok text =>
    match ofText text with
    | .error cause => .error (.invalid cause)
    | .ok g => .ok g

end ContextFree
