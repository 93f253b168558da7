import ChaiBind.Binding.Routine
import ChaiBind.Registry.Basic

/-!
# Binding a class

The routine of a class registers its constructors, then each overload of its
methods in the order of the table, then one relation to each ancestor. Ancestors
that are registered classes are written with their qualified names.

* A static method goes through a lambda that takes, and ignores, an instance.
* An overloaded method is picked by a cast, and scripts know it by the names of
  its class and itself.
-/

namespace ChaiBind

/-- Texts with commas between them. -/
def commaSeparated (texts : List String) : String := ", ".intercalate texts

namespace Param

/-- The types of a parameter list. -/
def types (ps : List Param) : String := commaSeparated (ps.map (·.type))

/-- The names of parameters from a position on: the declared ones, and a numbered one for each
parameter without a name. -/
def forwardingNamesFrom (i : Nat) : List Param → List String
  | [] => []
  | p :: ps => p.name.getD ("arg" ++ toString i) :: forwardingNamesFrom (i + 1) ps

/-- The names by which a lambda passes its parameters on. -/
def forwardingNames (ps : List Param) : List String := forwardingNamesFrom 0 ps

theorem length_forwardingNamesFrom (i : Nat) (ps : List Param) :
    (forwardingNamesFrom i ps).length = ps.length := by
  induction ps generalizing i with
  | nil => rfl
  | cons p ps ih => simp [forwardingNamesFrom, ih]

end Param

namespace Overload

/-- A lambda that calls a static method of a type. -/
def staticCall (type name : String) (o : Overload) : String :=
  let names := Param.forwardingNames o.params
  let params := (type ++ "& /*self*/") ::
    (o.params.zip names).map fun (p, forwarded) => p.type ++ " " ++ forwarded
  "[](" ++ commaSeparated params ++ ") \x7b return " ++ type ++ "::" ++ name ++ "(" ++
    commaSeparated names ++ "); \x7d"

/-- The address of one overload of a method, picked by a cast. -/
def castAddress (type name : String) (o : Overload) : String :=
  "static_cast<" ++ o.returnType ++ " (" ++ type ++ "::*)(" ++ Param.types o.params ++ ")" ++
    (if o.isConst then " const" else "") ++ ">(&" ++ type ++ "::" ++ name ++ ")"

/-- The expression for a method in generated code. -/
def callable (type name : String) (o : Overload) : String :=
  if o.isStatic then o.staticCall type name
  else if o.isOverloaded then o.castAddress type name
  else "&" ++ type ++ "::" ++ name

/-- The name of a method in scripts. -/
def exportedName (className name : String) (o : Overload) : String :=
  if o.isOverloaded then className ++ "_" ++ name else name

/-- The entry of a method in the list that a routine registers. -/
def methodEntry (className type name : String) (o : Overload) : String :=
  "\x7bchaiscript::fun(" ++ o.callable type name ++ "), \"" ++ o.exportedName className name ++
    "\"\x7d"

/-- A constructor as it is registered. -/
def constructorEntry (type : String) (o : Overload) : String :=
  "chaiscript::constructor<" ++ type ++ "(" ++ Param.types o.params ++ ")>()"

end Overload

/-- The lines of a list in braces, with something after the closing one. -/
def bracedLines (entries : List String) (terminator : String) : List String :=
  if entries.isEmpty then ["      \x7b\x7d" ++ terminator]
  else ["      \x7b"] ++ entries.map (fun e => "        " ++ e ++ ",") ++
    ["      \x7d" ++ terminator]

namespace ScriptClass

/-- The name of the routine that registers a class. -/
def routineName (c : ScriptClass) : String := "get" ++ c.name ++ "Module"

/-- The constructors as they are registered. -/
def constructorEntries (c : ScriptClass) : List String :=
  c.constructors.map (·.constructorEntry c.qualifiedName)

/-- The methods as they are registered, one entry for each overload that is bound. -/
def methodEntries (c : ScriptClass) : List String :=
  c.boundMethods.map fun (name, o) => o.methodEntry c.name c.qualifiedName name

/-- The classes to which the routine of a class relates it, as generated code writes them. -/
def relatedTypes (r : Registry) (c : ScriptClass) : List String := c.ancestors.map r.resolve

/-- The line that relates a class to one of its ancestors. -/
def relationLine (type related : String) : String :=
  "    module->add(chaiscript::base_class<" ++ related ++ ", " ++ type ++ ">());"

/-- The routine that registers a class. -/
def routine (r : Registry) (c : ScriptClass) : Routine :=
  { name := c.routineName
    body :=
      [newModule,
        "    chaiscript::utility::add_class<" ++ c.qualifiedName ++ ">(*module, std::string(\"" ++
          c.name ++ "\"),"] ++
      bracedLines c.constructorEntries "," ++ bracedLines c.methodEntries ");" ++
      (c.relatedTypes r).map (relationLine c.qualifiedName) }

end ScriptClass

end ChaiBind
