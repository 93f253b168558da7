import ChaiBind.Config.Exclude
import ChaiBind.Failure
import ChaiBind.Header.Unit
import ChaiBind.Path
import ChaiBind.Text.Utf8

/-!
# Finding headers

The files below the source root that no pattern leaves out, and among them the
headers that opt in. The generated header never counts, under whatever path it is
met. Files without the extension of a header are not read.
-/

namespace ChaiBind

open Text Header

/-- The name of the configuration file that is used if none is named. -/
def configFileName : String := "scriptgen.yaml"

/-- Whether the name of a file has an extension of headers. -/
def Config.isHeader (c : Config) (path : String) : Bool :=
  match Path.extension? path.toList with
  | some extension => c.extensions.contains (String.ofList extension)
  | none => false

namespace FileTree

/-- The configuration in a file. -/
def loadConfigFrom (t : FileTree) (path : String) : Except Failure Config :=
  match t.readText path with
  | .error e => .error (.file .readConfig path e)
  | .ok text => (Config.ofText text).mapError .config

/-- The configuration in a named file, which has to be there, or else in the usual one if it is
there. -/
def loadConfig (t : FileTree) (path : Option String) : Except Failure Config :=
  match path with
  | some path => if t.isFile path then t.loadConfigFrom path else .error (.configMissing path)
  | none => if t.isFile configFileName then t.loadConfigFrom configFileName else .ok .defaults

/-- A file that a run reads: neither left out nor the output. -/
def isCandidate (t : FileTree) (c : Config) (path : String) : Bool :=
  let isOutput := match t.canonical? c.output with
    | some a => t.canonical? path = some a
    | none => false
  !c.isExcluded path && !isOutput

/-- The candidates below the source root. -/
def scan (t : FileTree) (c : Config) : Except Failure (List String) :=
  if t.isDirectory c.source then
    match t.walk c.source with
    | .ok paths => .ok (paths.filter (t.isCandidate c))
    | .error fault => .error (.walk fault)
  else if t.leads c.source then .error (.sourceNotDirectory c.source)
  else .error (.sourceMissing c.source)

/-- The header at a path, if its text opts in. -/
def loadHeader (t : FileTree) (root path : String) : Except Failure (Option SourceUnit) :=
  match t.read path with
  | .error e => .error (.file .readHeader path e)
  | .ok content =>
    let text := decodeLossy content
    if isScriptable text.toList then .ok (some ⟨path, Path.includeText root path, text⟩)
    else .ok none

/-- The headers among some paths that opt in. -/
def loadHeaders (t : FileTree) (c : Config) (root : String) (paths : List String) :
    Except Failure (List SourceUnit) := do
  let units ← (paths.filter c.isHeader).mapM (t.loadHeader root)
  return units.filterMap id

end FileTree

end ChaiBind
