import ChaiBind.Text.Location

/-!
# Diagnostics

What a run has to say about declarations that it skipped or read only in part.
A diagnostic never stops a run; warnings can be denied, notes cannot.
-/

namespace ChaiBind

open Text

/-- How much a diagnostic matters. -/
inductive Severity
  /-- Shown only to those who ask for it. -/
  | note
  | warning
deriving DecidableEq, Repr

/-- The word for a severity. -/
def Severity.label : Severity → String
  | .note => "note"
  | .warning => "warning"

/-- A remark on a declaration, or on what is missing from it. -/
structure Diagnostic where
  severity : Severity
  /-- The kind of the diagnostic, for programs. -/
  code : String
  message : String
  help : Option String
  /-- The file it is about. -/
  path : Option String
  /-- The place in that file. -/
  location : Option Location
deriving DecidableEq, Repr

namespace Diagnostic

/-- Whether it counts where warnings are denied. -/
def isWarning (d : Diagnostic) : Bool := d.severity = .warning

/-- The same diagnostic about a file. -/
def inFile (d : Diagnostic) (path : String) : Diagnostic := { d with path := some path }

/-- The file and the place in it, as far as they are known. -/
def position (d : Diagnostic) : Option String :=
  match d.path, d.location with
  | some path, some l => some (path ++ ":" ++ l.stored.display)
  | some path, none => some path
  | none, some l => some l.stored.display
  | none, none => none

/-- How many diagnostics are warnings. -/
def warningCount (ds : List Diagnostic) : Nat := ds.countP isWarning

/-- Whether one of the diagnostics is a warning. -/
def hasWarnings (ds : List Diagnostic) : Bool := ds.any isWarning

theorem hasWarnings_iff_warningCount_pos (ds : List Diagnostic) :
    hasWarnings ds ↔ 0 < warningCount ds := by
  simp [hasWarnings, warningCount, List.countP_pos_iff]

end Diagnostic

end ChaiBind
