import ChaiBind.Text.Line

/-!
# Header files

A header as it was found: where it lies, how it is included, and its text. It
opts in by a line that holds `//= SCRIPTABLE` and nothing else but spaces and
tabs; only the carriage return of a line ending may follow.
-/

namespace ChaiBind

/-- A header that was found. -/
structure SourceUnit where
  /-- The path at which the header was found; diagnostics name it. -/
  path : String
  /-- The path below the source root, as an include directive gives it. -/
  includePath : String
  text : String
deriving DecidableEq, Repr

namespace Header

open Text

/-- Whether a line, without its newline, is the sentinel. -/
def isSentinel (line : List Char) : Bool :=
  match "//=".toList.isPrefixOf? (dropSpaces line) with
  | none => false
  | some rest =>
    match "SCRIPTABLE".toList.isPrefixOf? (dropSpaces rest) with
    | none => false
    | some rest => dropSpaces rest = [] || dropSpaces rest = ['\r']

/-- Whether a text opts in. -/
def isScriptable (cs : List Char) : Bool := (splitLines cs).any isSentinel

end Header

end ChaiBind
