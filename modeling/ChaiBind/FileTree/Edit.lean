import ChaiBind.FileTree.Basic
import ChaiBind.Path

/-!
# Changing a file tree

An edit gives the tree after it whether or not it succeeds, since an edit that
makes directories on its way may fail at a later one.
-/

namespace ChaiBind

/-- An operation that may change the tree and may fail; what it changed before it failed stays. -/
abbrev Edit := ExceptT FileError (StateM FileTree)

namespace FileTree

/-- The tree with something at an address. -/
def put (t : FileTree) (a : Address) (e : Entry) : FileTree :=
  { t with entries := t.entries.insert a e }

/-- The tree without an address and all that lies below it. -/
def remove (t : FileTree) (a : Address) : FileTree :=
  let kept := t.entries.entries.filter fun e => !a.isPrefixOf e.1
  { t with
    entries := ⟨kept, t.entries.nodup.sublist (List.Sublist.map _ List.filter_sublist)⟩ }

/-- Puts an entry where nothing is yet. -/
def place (path : String) (e : Entry) : Edit Unit := do
  let t ← get
  match ← (t.resolve .lookAtLink path : Except FileError _) with
  | (.found .., _) => throw .exists
  | (.vacant a name, _) => set (t.put (a ++ [name]) e)

/-- A path without the slashes at its end. -/
def dropSlashes (path : String) : String :=
  match (path.toList.reverse.dropWhile (· = '/')).reverse with
  | [] => path
  | cs => String.ofList cs

/-- Makes a directory; slashes at the end of its path do not matter. -/
def makeDirectory (path : String) : Edit Unit := place (dropSlashes path) .directory

/-- Makes a link to a target that need not exist. -/
def makeLink (path target : String) : Edit Unit := place path (.link target)

/-- Passes over a failure to make a directory if it is there. -/
def orDirectory (path : String) (e : FileError) : Edit Unit := do
  unless (← get).isDirectory path do throw e

/-- Makes the first of some paths a directory; each path is the parent of the one before it, and
is made first if it is missing. -/
def makeChain : List String → Edit Unit
  | [] => return
  | path :: above =>
    tryCatch (makeDirectory path) fun e => do
      if e ≠ .notFound then orDirectory path e
      else
        makeChain above
        tryCatch (makeDirectory path) (orDirectory path)

/-- A path and its parents, the innermost first; those with an empty text are left out. -/
def chainOf : Nat → List Char → List String
  | 0, _ => []
  | n + 1, path =>
    if path = [] then []
    else String.ofList path :: ((Path.parent? path).map (chainOf n)).getD []

/-- Makes a directory and all its parents that are missing. -/
def makeDirectories (path : String) : Edit Unit :=
  makeChain (chainOf (path.toList.length + 1) path.toList)

/-- Replaces the content of a file, or makes the file. -/
def write (path : String) (content : ByteArray) : Edit Unit := do
  let t ← get
  match ← (t.resolve .create path : Except FileError _) with
  | (.found _ .directory, _) => throw .isDirectory
  | (.found a _, _) => set (t.put a (.file content))
  | (.vacant a name, _) => set (t.put (a ++ [name]) (.file content))

/-- Removes what a path leads to; a link at its end is removed itself. -/
def delete (path : String) : Edit Unit := do
  let t ← get
  match ← (t.resolve .lookAtLink path : Except FileError _) with
  | (.found a _, _) => set (t.remove a)
  | (.vacant .., _) => throw .notFound

end FileTree

end ChaiBind
