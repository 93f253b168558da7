import ChaiBind.Declaration.Enumeration
import ChaiBind.Diagnostic.Finding
import ChaiBind.Header.ClassDeclaration
import ChaiBind.Header.Marker
import ChaiBind.Header.Unit
import ChaiBind.Text.Cursor
import ChaiBind.Text.Layer
import ChaiBind.Text.TopLevel

/-!
# Marked enumerations

After an enumeration marker, with nothing but blanks and comments in between,
comes `enum`, perhaps `class` or `struct`, attributes, a name, perhaps an
underlying type, the enumerators in braces and a semicolon. An enumeration whose
marker follows a class declaration bears the name of that class too.
-/

namespace ChaiBind.Header

open Text

/-- The enumeration at the start of a text, before it has a place in a header. -/
structure EnumDeclaration where
  isScoped : Bool
  name : List Char
  /-- What stands between the braces. -/
  body : List Char
deriving DecidableEq, Repr

/-- What follows attributes and the blanks after each, given enough steps. -/
def skipAttributesAndBlanks : Nat → List Char → List Char
  | 0, cs => cs
  | n + 1, cs =>
    match afterAttribute? cs with
    | some rest => skipAttributesAndBlanks n (trimStart rest)
    | none => cs

/-- What follows an underlying type; it needs a character of its own before the brace. -/
def afterUnderlyingType? : List Char → Option (List Char)
  | ':' :: cs =>
    match cs with
    | [] => none
    | c :: _ => if c = '{' || c = ';' then none else some (cs.dropWhile fun c => c ≠ '{' && c ≠ ';')
  | cs => some cs

/-- The name and the body of an enumeration, after its keywords. -/
def enumTail? (cs : List Char) : Option (List Char × List Char) := do
  let (name, rest) ← takeIdentifier (skipAttributesAndBlanks cs.length (trimStart cs))
  let rest ← afterUnderlyingType? (trimStart rest)
  let rest ← ['{'].isPrefixOf? rest
  let after ← ['}'].isPrefixOf? (rest.dropWhile (· ≠ '}'))
  guard ((trimStart after).head? = some ';')
  return (name, rest.takeWhile (· ≠ '}'))

/-- What follows the keyword of a scoped enumeration and the blanks before it. -/
def afterScopeKeyword? (cs : List Char) : Option (List Char) := do
  guard (cs.head?.any isBlank)
  (afterWord? "class".toList (trimStart cs)).or (afterWord? "struct".toList (trimStart cs))

/-- The declaration that starts a text. The word after `enum` is read as a keyword if that leaves
an enumeration, and else as the name. -/
def enumDeclaration? (cs : List Char) : Option EnumDeclaration := do
  let rest ← afterWord? "enum".toList cs
  match (afterScopeKeyword? rest).bind enumTail? with
  | some (name, body) => return ⟨true, name, body⟩
  | none =>
    let (name, body) ← enumTail? rest
    return ⟨false, name, body⟩

/-- The enumerators in order, without comments and initializers. -/
def enumerators (body : List Char) : List String :=
  (((splitTopLevel ',' (stripComments body)).map fun v => trim (beforeAssignment v)).filter
    (· ≠ [])).map String.ofList

/-- The enumeration at a marker, or what is wrong there. -/
def enumerationAt (unit : SourceUnit) (scope : Option String) (decls : List ClassDeclaration)
    (site : Marker.Site) : Except Diagnostic Enumeration :=
  match enumDeclaration? (skipTrivia site.rest) with
  | none => .error (Finding.enumerationMissing.reportAt (locate unit.text.toList site.start))
  | some d =>
    let owner := (owningClass? decls site.start).map (·.name)
    .ok
      { name := qualify owner (String.ofList d.name)
        scope
        includePath := unit.includePath
        path := unit.path
        isScoped := d.isScoped
        values := enumerators d.body }

/-- The marked enumerations of a header, and the markers that none follows. -/
def enumerationsOf (unit : SourceUnit) (scope : Option String) :
    List Enumeration × List Diagnostic :=
  let cs := unit.text.toList
  let found := (Marker.enumeration.sites cs).map
    (enumerationAt unit scope (classDeclarations cs))
  (found.filterMap fun
    | .ok e => some e
    | .error _ => none,
   found.filterMap fun
    | .ok _ => none
    | .error d => some d)

end ChaiBind.Header
