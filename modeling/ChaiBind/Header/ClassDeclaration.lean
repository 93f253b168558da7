import ChaiBind.Text.Cursor
import ChaiBind.Text.Identifier
import ChaiBind.Text.Line

/-!
# Class declarations

A class declaration is a line that starts with `class` and a name, between which
attributes may stand, and has no semicolon after the name; a line with one is a
forward declaration. What is marked in a header belongs to the nearest class
that is declared before it.
-/

namespace ChaiBind.Header

open Text

/-- A line that declares a class. -/
structure ClassDeclaration where
  name : String
  /-- The offset of the line. -/
  offset : Nat
deriving DecidableEq, Repr

/-- What follows an attribute at the start of a text. -/
def afterAttribute? : List Char → Option (List Char)
  | '[' :: '[' :: cs =>
    match cs.dropWhile (· ≠ ']') with
    | ']' :: ']' :: rest => some rest
    | _ => none
  | _ => none

/-- What follows attributes and the spaces and tabs after each, given enough steps. -/
def skipAttributes : Nat → List Char → List Char
  | 0, cs => cs
  | n + 1, cs =>
    match afterAttribute? cs with
    | some rest => skipAttributes n (dropSpaces rest)
    | none => cs

/-- The name of the class that a line declares. -/
def declaredName? (line : List Char) : Option (List Char) := do
  let rest ← "class".toList.isPrefixOf? (dropSpaces line)
  guard (rest.head?.any isSpaceOrTab)
  let (name, rest) ← takeIdentifier (skipAttributes rest.length (dropSpaces rest))
  guard (!rest.contains ';')
  return name

/-- Lines with the offsets at which they start, given that of the first. -/
def placeLines (offset : Nat) : List (List Char) → List (Nat × List Char)
  | [] => []
  | line :: lines => (offset, line) :: placeLines (offset + byteLength line + 1) lines

/-- The class declarations of a header, in order. -/
def classDeclarations (cs : List Char) : List ClassDeclaration :=
  (placeLines 0 (splitLines cs)).filterMap fun (offset, line) =>
    (declaredName? line).map fun name => ⟨String.ofList name, offset⟩

/-- The last class declared before an offset. -/
def owningClass? (decls : List ClassDeclaration) (offset : Nat) : Option ClassDeclaration :=
  decls.reverse.find? (·.offset < offset)

end ChaiBind.Header
