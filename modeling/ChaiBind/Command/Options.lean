/-!
# Commands and their options

What a command line may ask for. All commands that read headers share the options
that say where headers are read and where the generated header is; without a
command, the options are those of `generate`.
-/

namespace ChaiBind

/-- Where headers are read from and where the generated header goes; what is missing is taken from
the configuration. -/
structure SourceOptions where
  source : Option String
  output : Option String
  /-- The configuration file. -/
  manifest : Option String
deriving DecidableEq, Repr

/-- The options of a command that generates. -/
structure GenerateOptions where
  source : SourceOptions
  /-- Warnings are failures. -/
  denyWarnings : Bool
  /-- Notes are shown too. -/
  verbose : Bool
deriving DecidableEq, Repr

/-- The options of a listing. -/
structure ListOptions where
  source : SourceOptions
  json : Bool
deriving DecidableEq, Repr

/-- A shell that completion scripts are made for. -/
inductive Shell
  | bash
  | elvish
  | fish
  | powershell
  | zsh
deriving DecidableEq, Repr

namespace Shell

/-- The shells in the order in which they are named. -/
def all : List Shell := [.bash, .elvish, .fish, .powershell, .zsh]

/-- The name of a shell. -/
def name : Shell → String
  | .bash => "bash"
  | .elvish => "elvish"
  | .fish => "fish"
  | .powershell => "powershell"
  | .zsh => "zsh"

/-- The shell of a name. -/
def ofName? (name : String) : Option Shell := all.find? (·.name = name)

theorem ofName?_name (s : Shell) : ofName? s.name = some s := by
  cases s <;> decide

end Shell

/-- What a command line asks for. -/
inductive Command
  /-- No command, but options. -/
  | unnamed (options : GenerateOptions)
  | generate (options : GenerateOptions)
  | check (options : GenerateOptions)
  | list (options : ListOptions)
  | completions (shell : Shell)
deriving DecidableEq, Repr

/-- The options that say where a command finds its files. -/
def Command.sourceOptions? : Command → Option SourceOptions
  | .unnamed o | .generate o | .check o => some o.source
  | .list o => some o.source
  | .completions _ => none

/-- Why a command line asks for no command. -/
inductive UsageError
  | unknownArgument
  /-- A value that is missing, empty or not one of those allowed. -/
  | invalidValue
  /-- An option or a flag that comes twice, or options before a command. -/
  | argumentConflict
  | invalidSubcommand
  | missingRequiredArgument
  /-- A value for a flag. -/
  | tooManyValues
  | displayHelp
  | displayVersion
deriving DecidableEq, Repr

end ChaiBind
