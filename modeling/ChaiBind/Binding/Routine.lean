/-!
# Registration routines

Each class and each enumeration gets one routine, which makes a module of the
script interpreter. A routine is its name and the lines of its definition; the
header defines all routines and calls each of them by name.
-/

namespace ChaiBind

/-- A routine of the generated header, which registers one class or enumeration. -/
structure Routine where
  name : String
  /-- The lines of the body, without their newlines. -/
  body : List String
deriving DecidableEq, Repr

/-- Lines with a newline after each. -/
def unlines (lines : List String) : String := String.join (lines.map (· ++ "\n"))

theorem toList_unlines (lines : List String) :
    (unlines lines).toList = lines.flatMap fun line => line.toList ++ ['\n'] := by
  rw [unlines, String.toList_join, List.flatMap_map]
  simp only [String.toList_append]
  rfl

/-- The type of a module of the interpreter, as long as it is shared. -/
def moduleType : String := "chaiscript::ModulePtr"

/-- The statement that makes an empty module. -/
def newModule : String :=
  "    " ++ moduleType ++ " module = std::make_shared<chaiscript::Module>();"

namespace Routine

/-- The line with which the definition of a routine begins. -/
def opening (name : String) : String := "  " ++ moduleType ++ " " ++ name ++ "() \x7b"

/-- All lines of the definition. -/
def lines (r : Routine) : List String :=
  [opening r.name] ++ r.body ++ ["    return module;", "  \x7d"]

/-- The definition, indented to stand in a namespace. -/
def source (r : Routine) : String := unlines r.lines

/-- The expression that calls the routine. -/
def call (r : Routine) : String := r.name ++ "()"

end Routine

end ChaiBind
