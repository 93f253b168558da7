import ChaiBind.Binding.Routine
import ChaiBind.Declaration.Enumeration

/-!
# Binding an enumeration

The routine of an enumeration registers each value under the flat name of the
enumeration and its own, with an underscore between them.
-/

namespace ChaiBind.Enumeration

/-- The name of the routine that registers an enumeration. -/
def routineName (e : Enumeration) : String := "get" ++ e.plainName ++ "Module"

/-- The line that registers one value. -/
def valueLine (e : Enumeration) (value : String) : String :=
  "      \x7bstatic_cast<Underlying>(" ++ e.valueExpr value ++ "), \"" ++ e.flatName ++ "_" ++
    value ++ "\"\x7d,"

/-- The lines that list the values. -/
def valueLines (e : Enumeration) : List String :=
  let list := "    std::vector<std::pair<Underlying, std::string>> values"
  if e.values.isEmpty then [list ++ ";"]
  else [list ++ " = \x7b"] ++ e.values.map e.valueLine ++ ["    \x7d;"]

/-- The routine that registers an enumeration. -/
def routine (e : Enumeration) : Routine :=
  { name := e.routineName
    body :=
      ["    using Underlying = std::underlying_type<" ++ e.qualifiedName ++ ">::type;",
        newModule] ++
      e.valueLines ++
      ["    chaiscript::utility::add_class<" ++ e.qualifiedName ++ ">(*module, std::string(\"" ++
        e.flatName ++ "\"), values);"] }

end ChaiBind.Enumeration
