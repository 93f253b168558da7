import ChaiBind.Table
import ChaiBind.Text.Blank
import ChaiBind.Text.Cursor

/-!
# File trees

A tree of directories, files and symbolic links as a table from addresses, the
names on the way from the root, to what lies there, together with the working
directory. Paths are resolved name by name (`resolveFrom`): a link is replaced by
its content, which at most forty links on one way may be; a path that ends in a
slash has to lead to a directory.
-/

namespace ChaiBind

/-- The names on the way from the root. -/
abbrev Address := List String

/-- The path that starts at the root. -/
def Address.path (a : Address) : String := "/" ++ "/".intercalate a

/-- What can stand under a name. -/
inductive Entry
  | directory
  | file (content : ByteArray)
  | link (target : String)

/-- Why a file operation fails. -/
inductive FileError
  | notFound
  | exists
  | notDirectory
  | isDirectory
  | nameTooLong
  | tooManyLinks
  /-- The path holds a null character. -/
  | invalidPath
  /-- The content is not text in UTF-8. -/
  | notText
deriving DecidableEq, Repr

/-- The wording of the operating system. -/
def FileError.message : FileError → String
  | .notFound => "No such file or directory (os error 2)"
  | .exists => "File exists (os error 17)"
  | .notDirectory => "Not a directory (os error 20)"
  | .isDirectory => "Is a directory (os error 21)"
  | .nameTooLong => "File name too long (os error 36)"
  | .tooManyLinks => "Too many levels of symbolic links (os error 40)"
  | .invalidPath => "file name contained an unexpected NUL byte"
  | .notText => "stream did not contain valid UTF-8"

/-- The files that a run can see. -/
structure FileTree where
  /-- Everything but the root. -/
  entries : Table Address Entry
  workingDirectory : Address

namespace FileTree

/-- What lies at an address; the root is a directory. -/
def entry? (t : FileTree) (a : Address) : Option Entry :=
  if a = [] then some .directory else t.entries.get? a

/-! ## Steps of a path -/

/-- What one component of a path does. -/
inductive Step
  | here
  | up
  | down (name : String)
  /-- The slash at the end of a path. -/
  | settle
deriving DecidableEq, Repr

/-- The step that a component is. -/
def stepOf (text : List Char) : Step :=
  if text = ['.'] then .here else if text = ['.', '.'] then .up else .down (String.ofList text)

/-- The steps of a path; several slashes count as one. -/
def stepsOf (path : List Char) : List Step :=
  let texts := (Text.pieces (· = '/') path).filter (· ≠ [])
  texts.map stepOf ++ if texts ≠ [] && path.getLast? = some '/' then [.settle] else []

/-- Where the steps of a path start, given where the path is used. -/
def startOf (path : List Char) (directory : Address) : Address :=
  if path.head? = some '/' then [] else directory

/-! ## Resolution -/

/-- What a path is resolved for. -/
inductive Purpose
  | look
  /-- To look at the link itself if the path ends at one. -/
  | lookAtLink
  /-- To open a file, which is made if it is missing. -/
  | create
deriving DecidableEq, Repr

/-- Where a path leads. -/
inductive Goal
  | found (address : Address) (entry : Entry)
  /-- Nothing of that name, in a directory that is there. -/
  | vacant (directory : Address) (name : String)

/-- The number of links that one way may lead over. -/
def maxLinks : Nat := 40

/-- The longest name that an entry can have. -/
def maxNameBytes : Nat := 255

/-- The longest path that can be used. -/
def maxPathBytes : Nat := 4095

/-- Only the slash at the end is left. -/
def isLast (steps : List Step) : Bool := steps = [] || steps = [.settle]

/-- Where steps lead from an address, and how many links may still be followed then. -/
def resolveFrom (t : FileTree) (purpose : Purpose) (links : Nat) (a : Address)
    (steps : List Step) : Except FileError (Goal × Nat) :=
  match steps with
  | [] =>
    match t.entry? a with
    | some e => .ok (.found a e, links)
    | none => .error .notFound
  | step :: steps =>
    match t.entry? a with
    | none => .error .notFound
    | some (.file _) | some (.link _) => .error .notDirectory
    | some .directory =>
      match step with
      | .here | .settle => t.resolveFrom purpose links a steps
      | .up => t.resolveFrom purpose links a.dropLast steps
      | .down name =>
        if maxNameBytes < name.utf8ByteSize then .error .nameTooLong
        else if purpose = .create && steps = [.settle] then .error .isDirectory
        else
          match t.entry? (a ++ [name]) with
          | none => if isLast steps then .ok (.vacant a name, links) else .error .notFound
          | some (.link target) =>
            if purpose = .lookAtLink && steps = [] then
              .ok (.found (a ++ [name]) (.link target), links)
            else
              match links with
              | 0 => .error .tooManyLinks
              | links + 1 =>
                t.resolveFrom purpose links (startOf target.toList a)
                  (stepsOf target.toList ++ steps)
          | some _ => t.resolveFrom purpose links (a ++ [name]) steps
termination_by (links, steps.length)

/-- Where a path leads. -/
def resolve (t : FileTree) (purpose : Purpose) (path : String) : Except FileError (Goal × Nat) :=
  if path.isEmpty then .error .notFound
  else if path.toList.contains '\x00' then .error .invalidPath
  else if maxPathBytes < path.utf8ByteSize then .error .nameTooLong
  else t.resolveFrom purpose maxLinks (startOf path.toList t.workingDirectory) (stepsOf path.toList)

/-! ## Looking -/

/-- The address and the entry to which a path leads over all links. -/
def find (t : FileTree) (path : String) : Except FileError (Address × Entry) := do
  match ← t.resolve .look path with
  | (.found a e, _) => return (a, e)
  | (.vacant .., _) => throw .notFound

/-- Whether a path leads to a directory. -/
def isDirectory (t : FileTree) (path : String) : Bool :=
  match t.find path with
  | .ok (_, .directory) => true
  | _ => false

/-- Whether a path leads to a file. -/
def isFile (t : FileTree) (path : String) : Bool :=
  match t.find path with
  | .ok (_, .file _) => true
  | _ => false

/-- Whether a path leads anywhere. -/
def leads (t : FileTree) (path : String) : Bool := (t.find path).toBool

/-- The address to which a path leads. -/
def canonical? (t : FileTree) (path : String) : Option Address :=
  (t.find path).toOption.map Prod.fst

/-- The content of the file at a path. -/
def read (t : FileTree) (path : String) : Except FileError ByteArray := do
  match ← t.find path with
  | (_, .file content) => return content
  | _ => throw .isDirectory

/-- The content of a file that has to be text. -/
def readText (t : FileTree) (path : String) : Except FileError String := do
  match String.fromUTF8? (← t.read path) with
  | some text => return text
  | none => throw .notText

end FileTree

end ChaiBind
