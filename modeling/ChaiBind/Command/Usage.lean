import ChaiBind.Command.Options

/-!
# Usage

What people are told whose command line asks for no command. Help and the version
are no mistakes; they are what was asked for.
-/

namespace ChaiBind

/-- The name under which the program is run. -/
def programName : String := "scriptgen"

/-- The version that is told on request. -/
def programVersion : String := "0.4.1"

/-- The help text. -/
def usage : String :=
  "Usage: " ++ programName ++ " [generate|check|list|completions|help] [OPTIONS]\n\n" ++
    "Options:\n" ++
    "  -s, --source <DIR>     the root of the header tree\n" ++
    "  -o, --output <FILE>    the generated header\n" ++
    "      --manifest <FILE>  the configuration file\n" ++
    "      --deny-warnings    fail if there are warnings (generate, check)\n" ++
    "  -v, --verbose          show notes too (generate, check)\n" ++
    "      --json             list as JSON (list)\n" ++
    "  -h, --help             show this help\n" ++
    "  -V, --version          show the version\n"

namespace UsageError

/-- Whether the command line is wrong, so that the program fails. -/
def isMistake : UsageError → Bool
  | .displayHelp | .displayVersion => false
  | _ => true

/-- What is told, with the newline. -/
def message : UsageError → String
  | .unknownArgument => "error: unknown argument\n"
  | .invalidValue => "error: missing or invalid value\n"
  | .argumentConflict => "error: repeated or conflicting arguments\n"
  | .invalidSubcommand => "error: unknown command\n"
  | .missingRequiredArgument => "error: missing argument\n"
  | .tooManyValues => "error: a flag takes no value\n"
  | .displayHelp => usage
  | .displayVersion => programName ++ " " ++ programVersion ++ "\n"

end UsageError

end ChaiBind
