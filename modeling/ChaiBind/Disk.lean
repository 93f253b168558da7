import ChaiBind.FileTree.Edit

/-!
# The disk

Takes what lies at some paths of a disk into a file tree, and writes back what has
changed in the tree. Only here are files really read and written.

A link is taken in as a link to the real path of what it leads to, together with
what lies there. Entries that are neither directories, files nor links are left
out.
-/

namespace ChaiBind

/-- A file tree while it is filled. -/
structure Snapshot where
  tree : FileTree
  /-- The directories that are taken in with all that lies below them. -/
  complete : List Address

/-- Taking in what is on the disk. -/
abbrev Capture := StateT Snapshot IO

/-- The names of an absolute path without links. -/
def Address.ofPath (path : String) : Address := (path.splitOn "/").filter (· ≠ "")

namespace Capture

/-- Puts an entry into the tree, and the directories above it. -/
def record (a : Address) (e : Entry) : Capture Unit :=
  modify fun s =>
    let above := (List.range a.length).tail.map a.take
    { s with tree := (above.foldl (·.put · .directory) s.tree).put a e }

/-- The content of a link that leads nowhere: no file can have this name. -/
def nowhere : String := "\x00"

mutual

/-- Takes in an entry of a directory that is given by its real path; a directory with all that lies
below it if `deep`. -/
partial def takeEntry (deep : Bool) (e : IO.FS.DirEntry) : Capture Unit := do
  let .ok about ← e.path.symlinkMetadata.toBaseIO | return
  let a := Address.ofPath e.path.toString
  match about.type with
  | .dir =>
    record a .directory
    if deep then takeBelow a
  | .file => record a (.file (← IO.FS.readBinFile e.path))
  | .symlink =>
    match ← (IO.FS.realPath e.path).toBaseIO with
    | .ok target =>
      record a (.link target.toString)
      takeAt deep (Address.ofPath target.toString)
    | .error _ => record a (.link nowhere)
  | .other => return

/-- Takes in all that lies below a directory. -/
partial def takeBelow (a : Address) : Capture Unit := do
  if (← get).complete.contains a then return
  modify fun s => { s with complete := a :: s.complete }
  for e in ← (← IO.FS.realPath a.path).readDir do takeEntry true e

/-- Takes in what lies at an address without links. -/
partial def takeAt (deep : Bool) (a : Address) : Capture Unit := do
  match a.getLast? with
  | some name => takeEntry deep ⟨Address.path a.dropLast, name⟩
  | none => if deep then takeBelow a

end

/-- Takes in what steps from an address lead over and, if `deep`, all that lies below their end. -/
def takeSteps (deep : Bool) (a : Address) : List FileTree.Step → Capture Unit
  | [] => if deep then takeAt deep a else return
  | .here :: steps | .settle :: steps => takeSteps deep a steps
  | .up :: steps => takeSteps deep a.dropLast steps
  | .down name :: steps => do
    takeEntry false ⟨a.path, name⟩
    let .ok real ← (IO.FS.realPath (Path.join a.path name)).toBaseIO | return
    takeSteps deep (Address.ofPath real.toString) steps

/-- Takes in what a path leads over and, if `deep`, all that lies below its end. -/
def takePath (deep : Bool) (path : String) : Capture Unit := do
  unless path.isEmpty do
    takeSteps deep (FileTree.startOf path.toList (← get).tree.workingDirectory)
      (FileTree.stepsOf path.toList)

/-- The tree that is filled from the working directory. -/
def tree (capture : Capture Unit) : IO FileTree := do
  let here := Address.ofPath (← IO.FS.realPath ".").toString
  let start : Snapshot := ⟨⟨Table.empty, here⟩, []⟩
  return (← (takeAt false here *> capture).run start).2.tree

end Capture

/-- Writes an entry to the disk, given what was there before. -/
def Entry.save (a : Address) (e : Entry) (earlier : Option Entry) : IO Unit :=
  match e, earlier with
  | .directory, none => IO.FS.createDir a.path
  | .file content, some (.file old) =>
    unless content.data = old.data do IO.FS.writeBinFile a.path content
  | .file content, _ => IO.FS.writeBinFile a.path content
  | _, _ => return

/-- Writes to the disk what a tree has and an earlier one had not. -/
def FileTree.save (t earlier : FileTree) : IO Unit :=
  t.entries.entries.forM fun (a, e) => e.save a (earlier.entries.get? a)

end ChaiBind
