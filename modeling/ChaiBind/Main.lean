import ChaiBind.Command.Arguments
import ChaiBind.Command.Usage
import ChaiBind.Disk
import ChaiBind.Run.Write

/-!
# The program

Reads the command line, takes what the command needs from the disk, runs the
command on that, and writes back what it changed. The exit code is 1 if the
command fails and 2 if the command line is mistaken.
-/

namespace ChaiBind

/-- Takes in the files that some options name: the configuration, then the headers and the output
that it gives. -/
def Capture.takeSources (o : SourceOptions) : Capture Unit := do
  takePath false (o.manifest.getD configFileName)
  let .ok c := o.resolve (← get).tree | return
  takePath true c.source
  takePath false c.output

/-- A failure as people are shown it. -/
def Failure.printed (f : Failure) : String :=
  "error[" ++ f.code ++ "]: " ++ f.message ++ "\n" ++ f.help?.elim "" ("  help: " ++ · ++ "\n")

/-- Runs a command on the disk and gives its exit code. -/
def Command.execute (command : Command) : IO UInt32 := do
  let tree ← Capture.tree (command.sourceOptions?.forM Capture.takeSources)
  let outcome := command.run tree
  outcome.tree.save tree
  IO.print outcome.transcript.output
  IO.eprint outcome.transcript.messages
  match outcome.result with
  | .ok () => return 0
  | .error f =>
    IO.eprint f.printed
    return 1

/-- Runs the program on its arguments and gives its exit code. -/
def runProgram (args : List String) : IO UInt32 := do
  match Command.ofArguments args with
  | .ok command => command.execute
  | .error e =>
    if e.isMistake then
      IO.eprint (e.message ++ usage)
      return 2
    IO.print e.message
    return 0

end ChaiBind

/-- Runs the program. -/
def main (args : List String) : IO UInt32 := ChaiBind.runProgram args
