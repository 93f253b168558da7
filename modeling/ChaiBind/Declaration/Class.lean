import ChaiBind.Declaration.Overload

/-!
# Classes

A class of which part is to be scripted: what its header says of it and, once a
registry is built, all its ancestors.
-/

namespace ChaiBind

/-- A name inside a namespace, or alone in the global one. -/
def qualify (scope : Option String) (name : String) : String :=
  match scope with
  | some s => s ++ "::" ++ name
  | none => name

/-- A class that is exposed to scripts. -/
structure ScriptClass where
  name : String
  /-- The chain of enclosing namespaces, `none` for the global one. -/
  scope : Option String
  /-- The path by which its header is included. -/
  includePath : String
  /-- The path at which its header was found. -/
  path : String
  /-- The text between the markers. -/
  body : String
  /-- The direct bases that the header names. -/
  bases : List String
  /-- The bases, their bases and so on; empty until a registry is built. -/
  ancestors : List String
  methods : MethodTable
deriving DecidableEq

namespace ScriptClass

/-- The name with its namespaces. -/
def qualifiedName (c : ScriptClass) : String := qualify c.scope c.name

/-- The constructors in the order of the method table. -/
def constructors (c : ScriptClass) : List Overload :=
  c.methods.values.flatten.filter Overload.isConstructor

/-- All overloads but the constructors, each with its name. -/
def boundMethods (c : ScriptClass) : List (String × Overload) :=
  c.methods.entries.flatMap fun e => (e.2.filter (!·.isConstructor)).map (e.1, ·)

end ScriptClass

end ChaiBind
