import ChaiBind.Config.Basic
import ChaiBind.Console.Status
import ChaiBind.FileTree.Walk
import ChaiBind.Registry.Inheritance

/-!
# Failures

Everything that ends a run, one constructor per cause, with the kind under which
programs know it, its wording, and the help that people are given.
-/

namespace ChaiBind

/-- What a run does with files. -/
inductive FileTask
  | readConfig
  | readHeader
  | readOutput
  | makeDirectory
  | writeOutput
deriving DecidableEq, Repr

/-- The wording of a task that failed. -/
def FileTask.failureText : FileTask → String
  | .readConfig => "Failed to read config"
  | .readHeader => "Failed to read header"
  | .readOutput => "Failed to read generated header"
  | .makeDirectory => "Failed to create output directory"
  | .writeOutput => "Failed to write generated header"

/-- The kinds of failures that programs tell apart. -/
inductive FailureKind
  | files
  | discovery
  | config
  | inheritance
  | check
deriving DecidableEq, Repr

/-- The code of a kind. -/
def FailureKind.code : FailureKind → String
  | .files => "scriptgen::io"
  | .discovery => "scriptgen::discovery"
  | .config => "scriptgen::config"
  | .inheritance => "scriptgen::inheritance_cycle"
  | .check => "scriptgen::check"

/-- Why a run ends before its work is done. -/
inductive Failure
  | file (task : FileTask) (path : String) (error : FileError)
  /-- The root of the header tree is missing. -/
  | sourceMissing (path : String)
  | sourceNotDirectory (path : String)
  | walk (fault : WalkFault)
  | configMissing (path : String)
  | config (error : ConfigError)
  | cycle (c : InheritanceCycle)
  /-- There are warnings, and they are denied. -/
  | warnings (count : Nat)
  /-- The generated header, as people are shown its path, is missing. -/
  | outputMissing (shown : String)
  | outputStale (shown : String)
deriving DecidableEq, Repr

/-! ## Wording -/

/-- The path at which a walk stopped. -/
def WalkFault.path : WalkFault → String
  | .unreachable path _ => path
  | .loop path _ => path

/-- What is wrong at that path. -/
def WalkFault.message : WalkFault → String
  | .unreachable path e => "IO error for operation on " ++ path ++ ": " ++ e.message
  | .loop path ancestor =>
    "File system loop found: " ++ path ++ " points to an ancestor " ++ ancestor

/-- What is wrong with a configuration. -/
def ConfigError.message : ConfigError → String
  | .invalid => "Invalid config"
  | .noExtensions => "`extensions` must name at least one header extension"
  | .badGuard name => "`" ++ name ++ "` is not a valid include guard"

/-- How the configuration can be put right. -/
def ConfigError.help : ConfigError → String
  | .invalid => "Check scriptgen.yaml syntax"
  | .noExtensions => "Remove the key to use the defaults (h, hpp)"
  | .badGuard _ => "Use a C identifier such as GENERATED_REGISTRATIONS_H"

namespace Failure

/-- The kind of a failure. -/
def kind : Failure → FailureKind
  | .file .. => .files
  | .sourceMissing _ | .sourceNotDirectory _ | .walk _ => .discovery
  | .configMissing _ | .config _ => .config
  | .cycle _ => .inheritance
  | .warnings _ | .outputMissing _ | .outputStale _ => .check

/-- The code of its kind. -/
def code (f : Failure) : String := f.kind.code

/-- What went wrong, as people are told. -/
def message : Failure → String
  | .file task path e => "IO error with " ++ path ++ ": " ++ task.failureText ++ ": " ++ e.message
  | .sourceMissing path => "Cannot scan " ++ path ++ ": directory does not exist"
  | .sourceNotDirectory path => "Cannot scan " ++ path ++ ": not a directory"
  | .walk fault => "Cannot scan " ++ fault.path ++ ": " ++ fault.message
  | .configMissing path => "Config error: config file " ++ path ++ " not found"
  | .config e => "Config error: " ++ e.message
  | .cycle c => "Inheritance cycle detected: " ++ c.display
  | .warnings n => "Check failed: " ++ Console.countedWarnings n ++ " reported"
  | .outputMissing shown => "Check failed: " ++ shown ++ " has not been generated"
  | .outputStale shown => "Check failed: " ++ shown ++ " is out of date"

/-- What people can do about it, where there is something. -/
def help? : Failure → Option String
  | .sourceMissing _ | .sourceNotDirectory _ =>
    some "Pass the header tree with --source or set `source` in scriptgen.yaml"
  | .config e => some e.help
  | .cycle _ => some "Remove one of the SCRIPTABLE BASES entries that closes the cycle"
  | .warnings _ => some "Fix the reported declarations or drop --deny-warnings"
  | .outputMissing _ | .outputStale _ => some "Run `scriptgen generate`"
  | .file .. | .walk _ | .configMissing _ => none

end Failure

end ChaiBind
