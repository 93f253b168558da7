import ChaiBind.Binding.Class
import ChaiBind.Console.Status
import ChaiBind.Registry.Basic

/-!
# The inventory

What a registry holds, as status lines: for each class its constructors, methods
and ancestors, for each enumeration its values.
-/

namespace ChaiBind

open Console

/-- The names of methods, without that of the class. -/
def ScriptClass.methodNames (c : ScriptClass) : List String := c.methods.keys.filter (· ≠ c.name)

/-- The lines about a class: where it is, its members, and its ancestors if it has any. -/
def ScriptClass.inventory (c : ScriptClass) : List String :=
  let methods := c.methodNames
  [statusLine "Class" (c.qualifiedName ++ " (" ++ c.includePath ++ ")"),
    statusLine "" (counted c.constructors.length "constructor" "constructors" ++ "; " ++
      if methods.isEmpty then "no methods" else commaSeparated methods)] ++
    if c.ancestors.isEmpty then [] else [statusLine "" ("-> " ++ commaSeparated c.ancestors)]

/-- The lines about an enumeration: where it is, and its values. -/
def Enumeration.inventory (e : Enumeration) : List String :=
  [statusLine "Enum" (e.qualifiedName ++ " (" ++ e.includePath ++ ")"),
    statusLine "" (commaSeparated e.values)]

/-- The lines about everything that is registered. -/
def Registry.inventory (r : Registry) : String :=
  String.join (r.classes.values.flatMap (·.inventory) ++ r.enums.values.flatMap (·.inventory))

end ChaiBind
