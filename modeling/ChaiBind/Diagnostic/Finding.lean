import ChaiBind.Diagnostic.Basic

/-!
# Findings

Everything that can be wrong with the declarations of a run, one constructor per
cause. The wording of each stands in `code`, `message` and `help?`; `report` puts
it into a diagnostic.
-/

namespace ChaiBind

open Text

/-- What there can be to say about a declaration. -/
inductive Finding
  /-- A region ends that has not begun. -/
  | endWithoutBegin
  | regionNotClosed
  /-- A second region in one file. -/
  | furtherRegion
  /-- A region that no class declaration precedes. -/
  | regionOutsideClass
  /-- An enumeration marker that no enumeration follows. -/
  | enumerationMissing
  | operatorNotBound
  /-- A line with a parenthesis that is no signature. -/
  | unreadableSignature (line : String)
  /-- A signature without a return type that does not bear the name of the class. -/
  | straySignature (name className : String)
  /-- A class whose name another file, at `path`, has declared before. -/
  | duplicateClass (name path : String)
  | duplicateEnumeration (name path : String)
  | unresolvedBase (base className : String)
deriving DecidableEq, Repr

namespace Finding

/-- How much a finding matters. -/
def severity : Finding → Severity
  | .operatorNotBound | .unresolvedBase .. => .note
  | _ => .warning

/-- The code under which programs know a finding. -/
def code : Finding → String
  | .endWithoutBegin | .regionOutsideClass => "scriptgen::orphan-region"
  | .regionNotClosed => "scriptgen::unterminated-region"
  | .furtherRegion => "scriptgen::extra-region"
  | .enumerationMissing => "scriptgen::orphan-enum-marker"
  | .operatorNotBound => "scriptgen::unsupported-operator"
  | .unreadableSignature _ => "scriptgen::unrecognized-signature"
  | .straySignature .. => "scriptgen::stray-signature"
  | .duplicateClass .. => "scriptgen::duplicate-class"
  | .duplicateEnumeration .. => "scriptgen::duplicate-enum"
  | .unresolvedBase .. => "scriptgen::unresolved-base"

/-- What people are told. -/
def message : Finding → String
  | .endWithoutBegin => "END SCRIPTABLE without a preceding BEGIN SCRIPTABLE"
  | .regionNotClosed => "BEGIN SCRIPTABLE is never closed; the class is skipped"
  | .furtherRegion => "only the first BEGIN SCRIPTABLE region in a file is used"
  | .regionOutsideClass => "BEGIN SCRIPTABLE does not follow a class declaration"
  | .enumerationMissing => "SCRIPTABLE ENUM is not followed by an enum declaration"
  | .operatorNotBound => "operators are not bound"
  | .unreadableSignature line => "cannot read signature `" ++ line ++ "`"
  | .straySignature name className =>
    "`" ++ name ++ "` has no return type and is not a constructor of " ++ className
  | .duplicateClass name path =>
    "class `" ++ name ++ "` is also declared in " ++ path ++ "; using this declaration"
  | .duplicateEnumeration name path =>
    "enum `" ++ name ++ "` is also declared in " ++ path ++ "; using this declaration"
  | .unresolvedBase base className =>
    "base `" ++ base ++ "` of `" ++ className ++ "` is not a scriptable class"

/-- What they can do about it, where there is something. -/
def help? : Finding → Option String
  | .regionNotClosed => some "Add //= END SCRIPTABLE after the last exposed member"
  | .furtherRegion => some "Move additional scriptable classes into their own headers"
  | .enumerationMissing => some "The marker must directly precede `enum Name \x7b ... \x7d;`"
  | .unreadableSignature _ => some "Signatures must fit on a single line"
  | .duplicateClass .. => some "Scriptable class names must be unique across the source tree"
  | .duplicateEnumeration .. => some "Scriptable enum names must be unique within a namespace"
  | _ => none

/-- The diagnostic for a finding, about no file yet. -/
def report (f : Finding) : Diagnostic :=
  ⟨f.severity, f.code, f.message, f.help?, none, none⟩

/-- The diagnostic for a finding at a place. -/
def reportAt (f : Finding) (l : Location) : Diagnostic := { f.report with location := some l }

end Finding

end ChaiBind
