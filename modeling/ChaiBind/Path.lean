import ChaiBind.Text.Blank

/-!
# Paths

A path is text that slashes cut into components. Empty components do not count,
nor does a dot, unless it starts a relative path. Functions that give part of a
path keep it as it is written, from its first component to its last.
-/

namespace ChaiBind.Path

open Text

/-- What stands between two slashes. -/
inductive Component
  /-- The slash that starts an absolute path. -/
  | root
  /-- A dot at the start of a relative path. -/
  | here
  | parent
  | name (text : List Char)
deriving DecidableEq, Repr

/-- A component and where it stands in its path, counted in characters. -/
structure Piece where
  component : Component
  start : Nat
  stop : Nat
deriving DecidableEq, Repr

/-- The component that a text between slashes is, given whether it starts the path. -/
def componentOf (isFirst : Bool) (text : List Char) : Option Component :=
  if text = [] then none
  else if text = ['.'] then if isFirst then some .here else none
  else if text = ['.', '.'] then some .parent
  else some (.name text)

/-- The components among texts between slashes, given where the first of them stands. -/
def piecesFrom (isFirst : Bool) (start : Nat) : List (List Char) → List Piece
  | [] => []
  | text :: texts =>
    ((componentOf isFirst text).map fun c => ⟨c, start, start + text.length⟩).toList ++
      piecesFrom false (start + text.length + 1) texts

/-- The components of a path with their places. -/
def pieces (path : List Char) : List Piece :=
  match path with
  | '/' :: _ => ⟨.root, 0, 1⟩ :: piecesFrom false 0 (Text.pieces (· = '/') path)
  | _ => piecesFrom true 0 (Text.pieces (· = '/') path)

/-- The components of a path. -/
def components (path : List Char) : List Component := (pieces path).map (·.component)

/-- The names among the components. -/
def names (path : List Char) : List (List Char) :=
  (components path).filterMap fun
    | .name text => some text
    | _ => none

/-- The part of a path that some of its neighbouring pieces make up. -/
def spanOf (path : List Char) (ps : List Piece) : List Char :=
  match ps.head?, ps.getLast? with
  | some first, some last => (path.take last.stop).drop first.start
  | _, _ => []

/-- What is left of a path below a base. -/
def below? (base path : List Char) : Option (List Char) :=
  let ps := pieces path
  let n := (components base).length
  if (ps.take n).map (·.component) = components base then some (spanOf path (ps.drop n)) else none

/-- A path without its last component; the root has no parent, nor has the empty path. -/
def parent? (path : List Char) : Option (List Char) :=
  match (pieces path).getLast? with
  | none => none
  | some last => if last.component = .root then none else some (spanOf path (pieces path).dropLast)

/-- The last component if it is a name. -/
def fileName? (path : List Char) : Option (List Char) :=
  match (components path).getLast? with
  | some (.name text) => some text
  | _ => none

/-- What follows the last dot of the file name, unless that dot starts the name. -/
def extension? (path : List Char) : Option (List Char) := do
  let name ← fileName? path
  let after := (name.reverse.takeWhile (· ≠ '.')).reverse
  if name.length ≤ after.length + 1 then none else some after

/-- A name in a directory. -/
def join (directory name : String) : String :=
  if directory.toList.getLast? = some '/' then directory ++ name else directory ++ "/" ++ name

/-- The path by which a header is included: its names below the root of the tree, or all of its
names if it does not lie there. -/
def includeText (root path : String) : String :=
  let relative := (below? root.toList path.toList).getD path.toList
  String.ofList (['/'].intercalate (names relative))

/-- A path as people are shown it: below the working directory if it lies there. -/
def display (workingDirectory path : String) : String :=
  match below? workingDirectory.toList path.toList with
  | some [] => "."
  | some relative => String.ofList relative
  | none => path

end ChaiBind.Path
