import ChaiBind.Command.Options

/-!
# Reading a command line

Arguments are read from left to right. The value of an option may be attached to
it or be the next argument, unless that starts with a dash; such a value is
looked at only when the next option or flag comes, or at the end (`settle`), so
that what is wrong with it may be passed over by an earlier complaint about what
follows. Short flags may be run together. After `--` nothing is an option.
-/

namespace ChaiBind

namespace Arguments

/-- An option with a value. -/
inductive Setting
  | source
  | output
  | manifest
deriving DecidableEq, Repr

/-- An option without a value. -/
inductive Switch
  | denyWarnings
  | verbose
  | json
  | help
  | version
deriving DecidableEq, Repr

/-- What the arguments belong to. -/
inductive Level
  | top
  | generate
  | check
  | list
  | completions
deriving DecidableEq, Repr

/-- What an argument names. -/
inductive Named
  | setting (s : Setting)
  | switch (s : Switch)
deriving DecidableEq, Repr

/-! ## Names -/

/-- The name behind two dashes. -/
def longName : Named → String
  | .setting .source => "source"
  | .setting .output => "output"
  | .setting .manifest => "manifest"
  | .switch .denyWarnings => "deny-warnings"
  | .switch .verbose => "verbose"
  | .switch .json => "json"
  | .switch .help => "help"
  | .switch .version => "version"

/-- The letter behind one dash, if there is one. -/
def shortName? : Named → Option Char
  | .setting .source => some 's'
  | .setting .output => some 'o'
  | .switch .verbose => some 'v'
  | .switch .help => some 'h'
  | .switch .version => some 'V'
  | _ => none

/-- The options that say where files are. -/
def sourceSettings : List Named := [.setting .source, .setting .output, .setting .manifest]

/-- The switches of a command that generates. -/
def runSwitches : List Named := [.switch .denyWarnings, .switch .verbose, .switch .help]

namespace Level

/-- The options and flags of a level. -/
def known : Level → List Named
  | .top => sourceSettings ++ runSwitches ++ [.switch .version]
  | .generate | .check => sourceSettings ++ runSwitches
  | .list => sourceSettings ++ [.switch .json, .switch .help]
  | .completions => [.switch .help]

/-- What a name means at a level. -/
def long? (l : Level) (name : String) : Option Named := l.known.find? (longName · = name)

/-- What a letter means at a level. -/
def short? (l : Level) (c : Char) : Option Named := l.known.find? (shortName? · = some c)

/-- The level behind the name of a command. -/
def ofCommandName? : String → Option Level
  | "generate" => some .generate
  | "check" => some .check
  | "list" => some .list
  | "completions" => some .completions
  | _ => none

end Level

/-- The name of a command, or of the one that shows help. -/
def isCommandName (arg : String) : Bool := (Level.ofCommandName? arg).isSome || arg = "help"

/-! ## Progress -/

/-- Something whose value has not been looked at yet. -/
inductive Pending
  | setting (s : Setting) (value : Option String)
  | shell (name : String)
deriving DecidableEq, Repr

/-- What has been read of a command line. -/
structure Progress where
  settings : List (Setting × String)
  switches : List Switch
  shell : Option Shell
  pending : Option Pending
  /-- The option that takes the next argument as its value. -/
  awaiting : Option Setting
  /-- Some argument has been recognized. -/
  found : Bool
  /-- `--` has come. -/
  trailing : Bool
deriving DecidableEq, Repr

namespace Progress

/-- Nothing has been read. -/
def start : Progress := ⟨[], [], none, none, none, false, false⟩

/-- Takes the value of an option. -/
def put (p : Progress) (s : Setting) (value : String) : Except UsageError Progress :=
  if (p.settings.lookup s).isSome then .error .argumentConflict
  else if value.isEmpty then .error .invalidValue
  else .ok { p with settings := (s, value) :: p.settings }

/-- Looks at what is pending. -/
def settle (p : Progress) : Except UsageError Progress :=
  let p' := { p with pending := none }
  match p.pending with
  | none => .ok p
  | some (.setting _ none) => .error .invalidValue
  | some (.setting s (some value)) => p'.put s value
  | some (.shell name) =>
    match Shell.ofName? name with
    | some shell => .ok { p' with shell := some shell }
    | none => .error .invalidValue

/-- An option without an attached value. -/
def await (p : Progress) (s : Setting) : Except UsageError Progress := do
  let p ← p.settle
  return { p with pending := some (.setting s none), awaiting := some s }

/-- An option with an attached value. -/
def putAttached (p : Progress) (s : Setting) (value : String) : Except UsageError Progress := do
  (← p.settle).put s value

/-- Takes a switch, which may come once. -/
def turnOn (p : Progress) (s : Switch) : Except UsageError Progress := do
  let p ← p.settle
  if s = .help then throw .displayHelp
  if s = .version then throw .displayVersion
  if s ∈ p.switches then throw .argumentConflict
  return { p with switches := s :: p.switches }

end Progress

/-! ## Options -/

/-- An argument after its two dashes. -/
def readLong (l : Level) (p : Progress) (arg : List Char) : Except UsageError Progress :=
  let name := String.ofList (arg.takeWhile (· ≠ '='))
  let value := match arg.dropWhile (· ≠ '=') with
    | _ :: value => some (String.ofList value)
    | [] => none
  let p' := { p with found := true, awaiting := none }
  match l.long? name, value with
  | none, _ => .error .unknownArgument
  | some (.setting s), some value => p'.putAttached s value
  | some (.setting s), none => p'.await s
  | some (.switch _), some _ => .error .tooManyValues
  | some (.switch s), none => p'.turnOn s

/-- An argument after its one dash: flags, and an option with what follows it as its value. -/
def readShort (l : Level) (p : Progress) : List Char → Except UsageError Progress
  | [] => .ok p
  | c :: cs =>
    let p' := { p with found := true, awaiting := none }
    match l.short? c with
    | none => .error .unknownArgument
    | some (.switch s) => do readShort l (← p'.turnOn s) cs
    | some (.setting s) =>
      match cs with
      | [] => p'.await s
      | '=' :: value => p'.putAttached s (String.ofList value)
      | value => p'.putAttached s (String.ofList value)

/-! ## Arguments -/

/-- Complains about an argument that stands where none may. -/
def straying (l : Level) (p : Progress) (arg : String) : UsageError :=
  if l ≠ .top then .unknownArgument
  else if p.found then .argumentConflict
  else if p.trailing && isCommandName arg then .unknownArgument
  else .invalidSubcommand

/-- An argument that is no option. -/
def readPlain (l : Level) (p : Progress) (arg : String) : Except UsageError Progress :=
  if l = .completions && p.shell = none && p.pending = none then
    .ok { p with pending := some (.shell arg), found := true }
  else .error (straying l p arg)

/-- One argument, which names no command. -/
def read (l : Level) (p : Progress) (arg : String) : Except UsageError Progress :=
  if p.trailing then readPlain l p arg
  else
    match arg.toList, p.awaiting with
    | ['-', '-'], _ => .ok { p with trailing := true }
    | '-' :: '-' :: cs, _ => readLong l p cs
    | '-' :: c :: cs, _ => readShort l p (c :: cs)
    | _, some s => .ok { p with pending := some (.setting s (some arg)), awaiting := none }
    | _, none => readPlain l p arg

/-- The settings of a finished level. -/
def Progress.source (p : Progress) : SourceOptions :=
  ⟨p.settings.lookup .source, p.settings.lookup .output, p.settings.lookup .manifest⟩

/-- The options of a command that generates. -/
def Progress.generateOptions (p : Progress) : GenerateOptions :=
  ⟨p.source, p.switches.contains .denyWarnings, p.switches.contains .verbose⟩

/-- The command of a finished level. -/
def finish (l : Level) (p : Progress) : Except UsageError Command := do
  let p ← p.settle
  match l with
  | .top => return .unnamed p.generateOptions
  | .generate => return .generate p.generateOptions
  | .check => return .check p.generateOptions
  | .list => return .list ⟨p.source, p.switches.contains .json⟩
  | .completions =>
    match p.shell with
    | some shell => return .completions shell
    | none => throw .missingRequiredArgument

/-- The arguments of a level. -/
def readAll (l : Level) (p : Progress) (args : List String) : Except UsageError Command := do
  finish l (← args.foldlM (read l) p)

/-- What the command that shows help is asked about has to be one command, or nothing. -/
def readHelp : List String → UsageError
  | [] => .displayHelp
  | [arg] => if isCommandName arg then .displayHelp else .invalidSubcommand
  | _ => .invalidSubcommand

/-- The arguments from the first on; a command is named before any option. -/
def readTop (p : Progress) : List String → Except UsageError Command
  | [] => finish .top p
  | arg :: args =>
    if p.found || p.trailing then readAll .top p (arg :: args)
    else if arg = "help" then .error (readHelp args)
    else
      match Level.ofCommandName? arg with
      | some l => readAll l .start args
      | none => do readTop (← read .top p arg) args

end Arguments

/-- The command for which a command line asks. -/
def Command.ofArguments (args : List String) : Except UsageError Command :=
  Arguments.readTop .start args

end ChaiBind
