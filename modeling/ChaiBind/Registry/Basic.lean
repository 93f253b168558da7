import ChaiBind.Declaration.Class
import ChaiBind.Declaration.Enumeration

/-!
# The registry

Every class, enumeration and namespace of one run, in the order of discovery.
Classes are known by their bare names, enumerations by their qualified ones.
-/

namespace ChaiBind

/-- What is registered: classes by their names, enumerations by their qualified names. -/
structure Registry where
  classes : Table String ScriptClass
  enums : Table String Enumeration
  /-- Namespace chains, each once. -/
  scopes : List String

namespace Registry

/-- The registry in which nothing is registered. -/
def empty : Registry := ⟨Table.empty, Table.empty, []⟩

/-- The include paths of all headers that count, those of classes first, each once. -/
def includes (r : Registry) : List String :=
  (r.classes.values.map (·.includePath) ++ r.enums.values.map (·.includePath)).eraseDups

/-- The qualified name of a registered class, and any other name as it is. -/
def resolve (r : Registry) (name : String) : String :=
  match r.classes.get? name with
  | some c => c.qualifiedName
  | none => name

/-- The number of declarations. -/
def size (r : Registry) : Nat := r.classes.size + r.enums.size

end Registry

end ChaiBind
