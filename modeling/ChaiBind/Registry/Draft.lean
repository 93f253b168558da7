import ChaiBind.Header.Recognition
import ChaiBind.Registry.Basic
import ChaiBind.Registry.Inheritance

/-!
# Building a registry

A draft takes in what each header declares. A declaration whose key is taken
replaces the earlier one in its place, with a warning; the namespace of a header
is recorded only if the header contributes a declaration. Building a draft notes
bases that are no registered classes and finds all ancestors, which fails if
there is a cycle.
-/

namespace ChaiBind

/-- A registry in the making, and what there is to say so far. -/
structure Draft where
  registry : Registry
  diagnostics : List Diagnostic

namespace Draft

/-- The draft that no header has come to. -/
def empty : Draft := ⟨Registry.empty, []⟩

/-- Records a finding about a file, if there is one. -/
def note (d : Draft) (path : String) (f : Option Finding) : Draft :=
  { d with diagnostics := d.diagnostics ++ (f.map fun f => f.report.inFile path).toList }

/-- Takes in the namespace of a header, unless it is there already. -/
def addScope (d : Draft) (scope : Option String) : Draft :=
  match scope with
  | some s =>
    if s ∈ d.registry.scopes then d
    else { d with registry := { d.registry with scopes := d.registry.scopes ++ [s] } }
  | none => d

/-- Takes in a class, which replaces an earlier one of its name. -/
def addClass (d : Draft) (c : ScriptClass) : Draft :=
  let previous := d.registry.classes.get? c.name
  let d := d.note c.path (previous.map fun p => .duplicateClass c.name p.path)
  { d with registry := { d.registry with classes := d.registry.classes.insert c.name c } }

/-- Takes in an enumeration, which replaces an earlier one of its qualified name. -/
def addEnumeration (d : Draft) (e : Enumeration) : Draft :=
  let key := e.qualifiedName
  let previous := d.registry.enums.get? key
  let d := d.note e.path (previous.map fun p => .duplicateEnumeration key p.path)
  { d with registry := { d.registry with enums := d.registry.enums.insert key e } }

/-- Takes in what a header declares, after its own diagnostics. -/
def add (d : Draft) (r : Recognized) : Draft :=
  let d := { d with diagnostics := d.diagnostics ++ r.diagnostics }
  let d := if r.contributes then d.addScope r.scope else d
  let d := r.class?.elim d d.addClass
  r.enums.foldl addEnumeration d

/-- The draft of some headers, which come in turn. -/
def ofList (rs : List Recognized) : Draft := rs.foldl add empty

/-- The bases that the registered classes declare. -/
def inheritance (d : Draft) : Inheritance :=
  d.registry.classes.values.foldl (fun g c => g.add c.name c.bases) Inheritance.empty

/-- A note for each base that is no registered class, about the file of the class. -/
def unresolvedNotes (d : Draft) : List Diagnostic :=
  d.inheritance.unresolved.map fun (className, base) =>
    let report := (Finding.unresolvedBase base className).report
    match d.registry.classes.get? className with
    | some c => report.inFile c.path
    | none => report

/-- The registry with all ancestors, and every diagnostic. -/
def build (d : Draft) : Except InheritanceCycle (Registry × List Diagnostic) := do
  let ancestors ← d.inheritance.closure
  let classes := d.registry.classes.mapValues fun name c =>
    { c with ancestors := (ancestors.get? name).getD [] }
  return ({ d.registry with classes }, d.diagnostics ++ d.unresolvedNotes)

end Draft

end ChaiBind
