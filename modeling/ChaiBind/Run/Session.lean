import ChaiBind.Command.Options
import ChaiBind.Console.Status
import ChaiBind.Discovery.Headers
import ChaiBind.Run.Generation

/-!
# Sessions

A session reads a file tree, says things to people as it goes on, and may fail;
what it said before it failed stays said. It cannot change the tree. `prepare` is
what generating and checking share: everything up to the generated header.
-/

namespace ChaiBind

open Console

/-- What a run writes to its two streams. -/
structure Transcript where
  /-- For programs. -/
  output : String
  /-- For people. -/
  messages : String
deriving DecidableEq, Repr

/-- What a command does before anything is written. -/
abbrev Session := ExceptT Failure (StateM Transcript)

namespace Session

/-- Tells people something. -/
def say (text : String) : Session Unit :=
  modify fun s => { s with messages := s.messages ++ text }

/-- Writes something that programs read. -/
def print (text : String) : Session Unit :=
  modify fun s => { s with output := s.output ++ text }

/-- What a session returns or why it fails, and what it says. -/
def result (s : Session α) : Except Failure α × Transcript := (ExceptT.run s).run ⟨"", ""⟩

end Session

/-- A path as people are shown it. -/
def FileTree.display (t : FileTree) (path : String) : String :=
  Path.display t.workingDirectory.path path

/-- The configuration that options ask for. -/
def SourceOptions.resolve (o : SourceOptions) (t : FileTree) : Except Failure Config := do
  let c ← t.loadConfig o.manifest
  return { c with source := o.source.getD c.source, output := o.output.getD c.output }

/-- The headers of a configuration that opt in. -/
def discover (t : FileTree) (c : Config) : Session (List SourceUnit) := do
  Session.say (statusLine "Scanning" (t.display c.source))
  let paths ← t.scan c
  let units ← t.loadHeaders c c.source paths
  Session.say (statusLine "Found"
    (counted units.length "scriptable header" "scriptable headers" ++ " in " ++
      counted paths.length "file" "files"))
  return units

/-- The generated header of a configuration. -/
def produce (t : FileTree) (c : Config) : Session Generated := do
  let units ← discover t c
  ((generate units c.guardName).mapError .cycle : Except Failure Generated)

/-- The configuration and the generated header, after its diagnostics have been shown and, if that
is asked for, its warnings denied. -/
def prepare (t : FileTree) (o : GenerateOptions) : Session (Config × Generated) := do
  let c ← o.source.resolve t
  let g ← produce t c
  Session.say (Diagnostic.printed o.verbose g.diagnostics)
  if o.denyWarnings && Diagnostic.hasWarnings g.diagnostics then
    throw (.warnings (Diagnostic.warningCount g.diagnostics))
  return (c, g)

end ChaiBind
