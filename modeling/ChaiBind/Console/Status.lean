import ChaiBind.Diagnostic.Basic

/-!
# Status lines

What a run tells people: lines that start with a verb, set to the right in a
column of twelve characters, and its diagnostics. Counts are written with the
noun in the right number.
-/

namespace ChaiBind

namespace Console

/-- The width of the column of verbs. -/
def verbWidth : Nat := 12

/-- A text with spaces before it up to a width. -/
def alignRight (width : Nat) (text : String) : String :=
  String.ofList (List.replicate (width - text.length) ' ') ++ text

/-- A verb and what it says, with the newline. -/
def statusLine (verb message : String) : String :=
  alignRight verbWidth verb ++ " " ++ message ++ "\n"

/-- The status lines of a run; a quiet one has none. -/
def statusLines (quiet : Bool) (lines : List (String × String)) : String :=
  if quiet then "" else String.join (lines.map fun l => statusLine l.1 l.2)

/-- A number and what it counts. -/
def counted (n : Nat) (one many : String) : String :=
  toString n ++ " " ++ (if n = 1 then one else many)

/-- How many warnings there are. -/
def countedWarnings (n : Nat) : String := counted n "warning" "warnings"

end Console

namespace Diagnostic

open Console

/-- The line of a diagnostic, and one for its help. -/
def lines (d : Diagnostic) : List String :=
  let place := d.position.elim "" (· ++ ": ")
  (d.severity.label ++ "[" ++ d.code ++ "]: " ++ place ++ d.message) ::
    (d.help.map ("  help: " ++ ·)).toList

/-- Diagnostics as people are shown them, and how many warnings there are. Notes are left out
unless everything is asked for. -/
def printed (verbose : Bool) (ds : List Diagnostic) : String :=
  let shown := ds.filter fun d => verbose || d.isWarning
  let n := warningCount ds
  String.join ((shown.flatMap lines).map (· ++ "\n")) ++
    if n = 0 then "" else statusLine "Finished" ("with " ++ countedWarnings n)

end Diagnostic

end ChaiBind
