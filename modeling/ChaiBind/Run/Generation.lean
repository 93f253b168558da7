import ChaiBind.Binding.Header
import ChaiBind.Failure
import ChaiBind.Registry.Draft

/-!
# Generating

From headers to the generated header: each is recognized, what they declare goes
into one registry, and the registry is written as a header. Nothing is written to
a file here.
-/

namespace ChaiBind

/-- What is made of some headers. -/
structure Generated where
  /-- The generated header. -/
  text : String
  diagnostics : List Diagnostic
  /-- What the header was made from. -/
  registry : Registry

/-- The generated header of some headers, each read by the same recognizer. -/
def generateWith (recognizer : SourceUnit → Recognized) (units : List SourceUnit)
    (guardName : String) : Except InheritanceCycle Generated := do
  let (registry, diagnostics) ← (Draft.ofList (units.map recognizer)).build
  return ⟨registry.header guardName, diagnostics, registry⟩

/-- Generates from headers as they are recognized. -/
def generate (units : List SourceUnit) (guardName : String) : Except InheritanceCycle Generated :=
  generateWith recognize units guardName

namespace Generated

/-- How many classes and enumerations there are. -/
def summary (g : Generated) : String :=
  Console.counted g.registry.classes.size "class" "classes" ++ ", " ++
    Console.counted g.registry.enums.size "enum" "enums"

end Generated

end ChaiBind
