import ChaiBind.Header.EnumDeclaration
import ChaiBind.Header.Member
import ChaiBind.Header.Namespace
import ChaiBind.Header.Region

/-!
# What a header declares

All that one header contributes: its namespace, the class that owns its region,
its marked enumerations, and the diagnostics of the region, its members and the
enumerations, in this order.
-/

namespace ChaiBind

open Text Header

/-- What a header declares for scripts. -/
structure Recognized where
  scope : Option String
  class? : Option ScriptClass
  enums : List Enumeration
  diagnostics : List Diagnostic
deriving DecidableEq

namespace Recognized

/-- A header counts for a run if it declares a class or an enumeration. -/
def contributes (r : Recognized) : Bool := r.class?.isSome || !r.enums.isEmpty

end Recognized

/-- The class of a region with the members that its body declares. -/
def regionClass (unit : SourceUnit) (scope : Option String) (r : Region) :
    ScriptClass × List Diagnostic :=
  let cs := unit.text.toList
  let (methods, diagnostics) := methodsOf r.className r.body r.bodyOffset cs
  ({ name := r.className
     scope
     includePath := unit.includePath
     path := unit.path
     body := String.ofList r.body
     bases := basesOf cs
     ancestors := []
     methods }, diagnostics)

/-- Reads one header. -/
def recognize (unit : SourceUnit) : Recognized :=
  let cs := unit.text.toList
  let scope := namespaceOf cs
  let (region, regionDiagnostics) := regionOf cs
  let owner := region.map (regionClass unit scope)
  let (enums, enumDiagnostics) := enumerationsOf unit scope
  let diagnostics := regionDiagnostics ++ (owner.map Prod.snd).getD [] ++ enumDiagnostics
  { scope
    class? := owner.map Prod.fst
    enums
    diagnostics := diagnostics.map (·.inFile unit.path) }

end ChaiBind
