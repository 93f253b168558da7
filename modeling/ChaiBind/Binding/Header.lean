import ChaiBind.Binding.Class
import ChaiBind.Binding.Enumeration

/-!
# The generated header

One header holds the routines of a registry, enumerations before classes, and
`registerModules`, which adds the module of each to an interpreter. An empty
registry still gives a complete header.
-/

namespace ChaiBind.Registry

/-- What every generated header includes. -/
def systemIncludes : List String :=
  ["memory", "string", "type_traits", "utility", "vector", "chaiscript/chaiscript.hpp",
    "chaiscript/utility/utility.hpp"]

/-- The routines that a header defines and calls, in order. -/
def routines (r : Registry) : List Routine :=
  r.enums.values.map (·.routine) ++ r.classes.values.map (·.routine r)

/-- The first lines, with the guard and where the header comes from. -/
def guardLines (guardName : String) : List String :=
  ["#ifndef " ++ guardName, "#define " ++ guardName,
    "// Generated by scriptgen from the marked headers under the source root.",
    "// Do not edit: changes are overwritten on the next build.", ""]

/-- The includes: those of every header, then the headers that were read. -/
def includeLines (r : Registry) : List String :=
  systemIncludes.map (fun path => "#include <" ++ path ++ ">") ++
    r.includes.map fun path => "#include \"" ++ path ++ "\""

/-- One line for each namespace in use. -/
def scopeLines (r : Registry) : List String :=
  r.scopes.map fun scope => "  using namespace " ++ scope ++ ";"

/-- The routine that adds all modules to an interpreter. -/
def entryLines (routines : List Routine) : List String :=
  ["", "  void registerModules(std::shared_ptr<chaiscript::ChaiScript> chai) \x7b"] ++
    (if routines.isEmpty then ["    (void)chai;"] else []) ++
    routines.map (fun routine => "    chai->add(" ++ routine.call ++ ");") ++ ["  \x7d"]

/-- The lines of the header. -/
def headerLines (r : Registry) (guardName : String) : List String :=
  guardLines guardName ++ r.includeLines ++ ["", "namespace generated \x7b"] ++ r.scopeLines ++
    r.routines.flatMap (fun routine => "" :: routine.lines) ++ entryLines r.routines ++
    ["\x7d", "", "#endif // " ++ guardName]

/-- The text of the header. -/
def header (r : Registry) (guardName : String) : String := unlines (r.headerLines guardName)

end ChaiBind.Registry
