import ChaiBind.Declaration.Class

/-!
# Enumerations

An enumeration that a header marks for scripting. It is known by its qualified
name, and under a flat name without scopes to scripts; a value is written in
generated code by the scope in which its enumerator lives, which is the
enumeration itself only if that is scoped.
-/

namespace ChaiBind

/-- A name with every `::` replaced, from the left. -/
def replaceScopes (subst : List Char) : List Char → List Char
  | ':' :: ':' :: cs => subst ++ replaceScopes subst cs
  | c :: cs => c :: replaceScopes subst cs
  | [] => []

/-- What comes before the last `::` of a name, if there is one. -/
def enclosingScope : List Char → Option (List Char)
  | [] => none
  | c :: cs =>
    match enclosingScope cs with
    | some scope => some (c :: scope)
    | none => if c = ':' && cs.head? = some ':' then some [] else none

/-- An enumeration that is exposed to scripts. -/
structure Enumeration where
  /-- The name, after that of the class in which it was declared. -/
  name : String
  scope : Option String
  includePath : String
  path : String
  /-- Declared as `enum class` or `enum struct`. -/
  isScoped : Bool
  values : List String
deriving DecidableEq, Repr

namespace Enumeration

/-- The name with its namespaces. -/
def qualifiedName (e : Enumeration) : String := qualify e.scope e.name

/-- The name in scripts. -/
def flatName (e : Enumeration) : String := String.ofList (replaceScopes ['_'] e.name.toList)

/-- The name with its scopes run together. -/
def plainName (e : Enumeration) : String := String.ofList (replaceScopes [] e.name.toList)

/-- The expression for a value in generated code. -/
def valueExpr (e : Enumeration) (value : String) : String :=
  if e.isScoped then e.qualifiedName ++ "::" ++ value
  else
    match enclosingScope e.qualifiedName.toList with
    | some scope => String.ofList scope ++ "::" ++ value
    | none => value

end Enumeration

end ChaiBind
