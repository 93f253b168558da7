import ChaiBind.Text.Blank
import ChaiBind.Text.Cursor

/-!
# Markers

A header opts in by comments that start with `//=`. A marker is such a comment
with given words, which spaces and tabs may separate, and the last of which ends
where a word ends. Markers are looked for in the whole text, whatever comes
before them on their lines, and two of them never overlap.
-/

namespace ChaiBind

open Text

/-- What a comment can mark. -/
inductive Marker
  /-- The start of the exposed part of a class. -/
  | regionBegin
  | regionEnd
  /-- The bases of the class, up to the end of the line. -/
  | bases
  /-- The enumeration that follows is exposed. -/
  | enumeration
deriving DecidableEq, Repr

namespace Marker

/-- The words of a marker. -/
def words : Marker → List (List Char)
  | .regionBegin => ["BEGIN".toList, "SCRIPTABLE".toList]
  | .regionEnd => ["END".toList, "SCRIPTABLE".toList]
  | .bases => ["SCRIPTABLE".toList, "BASES".toList]
  | .enumeration => ["SCRIPTABLE".toList, "ENUM".toList]

/-- What follows some words, each with spaces and tabs before it. -/
def afterWords : List (List Char) → List Char → Option (List Char)
  | [], cs => some cs
  | w :: ws, cs => (w.isPrefixOf? (dropSpaces cs)).bind (afterWords ws)

/-- What follows a marker that starts the text. The words of all markers end in a word character,
so that only the next character decides whether the last word ends. -/
def after? (m : Marker) (cs : List Char) : Option (List Char) :=
  match cs with
  | '/' :: '/' :: '=' :: rest =>
    (afterWords m.words rest).filter fun r => !r.head?.any isWord
  | _ => none

/-- A marker found in a text: where it starts, where it stops and what follows. -/
structure Site where
  start : Nat
  stop : Nat
  rest : List Char
deriving DecidableEq, Repr

/-- The marker at a position, if there is one. -/
def siteAt? (m : Marker) (p : Cursor) : Option Site :=
  (m.after? p.rest).map fun rest =>
    ⟨p.offset, p.offset + (byteLength p.rest - byteLength rest), rest⟩

/-- The places of a marker in a text, in order. -/
def sites (m : Marker) (cs : List Char) : List Site := (cursors cs).filterMap m.siteAt?

end Marker

end ChaiBind
