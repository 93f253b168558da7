import ChaiBind.Text.Blank
import ChaiBind.Text.Identifier
import ChaiBind.Text.TopLevel

/-!
# Parameters

A parameter is its declaration, without a default value, cut into a type and an
optional name. The last word of a declaration is its name if it is a plain
identifier that follows a blank, a star or an ampersand, is not the keyword of a
builtin type, and leaves a type other than a lone `const` before it.
-/

namespace ChaiBind

open Text

/-- A parameter of a function. -/
structure Param where
  /-- The declaration as written. -/
  decl : String
  /-- The declaration without the name. -/
  type : String
  name : Option String
deriving DecidableEq, Repr

namespace Param

/-- The keywords that end a type and are never the name of a parameter. -/
def typeKeywords : List String :=
  ["int", "unsigned", "signed", "short", "long", "char", "bool", "float", "double", "void", "auto",
    "size_t", "wchar_t", "const", "volatile"]

/-- A character after which the name of a parameter may start. -/
def endsType (c : Char) : Bool := isBlank c || c = '&' || c = '*'

/-- A declaration cut after its last character that ends a type. -/
def cutName (decl : List Char) : List Char × List Char :=
  let name := (decl.reverse.takeWhile fun c => !endsType c).reverse
  (decl.take (decl.length - name.length), name)

/-- A candidate name is taken if it is a plain identifier, no type keyword, and has a type before
it. -/
def isNamed (type name : List Char) : Bool :=
  isAsciiIdentifier name && !typeKeywords.contains (String.ofList name) && type ≠ [] &&
    type ≠ "const".toList

/-- The parameter that a declaration declares. -/
def ofDeclaration (text : List Char) : Param :=
  let decl := trim text
  let (before, name) := cutName decl
  let type := trimEnd before
  if isNamed type name then ⟨String.ofList decl, String.ofList type, some (String.ofList name)⟩
  else ⟨String.ofList decl, String.ofList decl, none⟩

/-- The parameters of a list, without default values. A lone `void` declares none. -/
def ofList (text : List Char) : List Param :=
  let decls := ((splitTopLevel ',' text).map fun p => trim (beforeAssignment p)).filter (· ≠ [])
  if decls = ["void".toList] then [] else decls.map ofDeclaration

end Param

end ChaiBind
