import ChaiBind.FileTree.Edit
import ChaiBind.Run.Check

/-!
# Running commands

`writeOutput` is the only part of a run that changes the file tree, and it comes
after everything that can fail for another reason. The outcome of a command is
what it returns, what it says, and the tree after it.
-/

namespace ChaiBind

open Console

/-- Writes a generated header, after making the directory in which it goes. -/
def writeOutput (path text : String) : ExceptT Failure (StateM FileTree) Unit := do
  match Path.parent? path.toList with
  | none | some [] => pure ()
  | some parent =>
    let parent := String.ofList parent
    ExceptT.adapt (.file .makeDirectory parent) (FileTree.makeDirectories parent)
  ExceptT.adapt (.file .writeOutput path) (FileTree.write path text.toUTF8)

/-- What comes of a run. -/
structure Outcome where
  result : Except Failure Unit
  transcript : Transcript
  tree : FileTree

/-- The outcome of a session, which leaves the tree as it is. -/
def Session.outcome (s : Session Unit) (t : FileTree) : Outcome :=
  ⟨s.result.1, s.result.2, t⟩

/-- Writes the generated header of some options. -/
def generateOutput (t : FileTree) (o : GenerateOptions) : Outcome :=
  match (prepare t o).result with
  | (.error f, transcript) => ⟨.error f, transcript, t⟩
  | (.ok (c, g), transcript) =>
    match (writeOutput c.output g.text).run.run t with
    | (.error f, t) => ⟨.error f, transcript, t⟩
    | (.ok (), t) =>
      let line := statusLine "Generated" (t.display c.output ++ " (" ++ g.summary ++ ")")
      ⟨.ok (), { transcript with messages := transcript.messages ++ line }, t⟩

/-- Runs a command on a file tree. Completion scripts are not made here. -/
def Command.run (command : Command) (t : FileTree) : Outcome :=
  match command with
  | .unnamed o | .generate o => generateOutput t o
  | .check o => (checkOutput t o).outcome t
  | .list o => (showInventory t o).outcome t
  | .completions _ => ⟨.ok (), ⟨"", ""⟩, t⟩

end ChaiBind
