import ChaiBind.Diagnostic.Basic
import ChaiBind.Json.Value
import ChaiBind.Registry.Basic

/-!
# Registries and diagnostics as JSON

The fields under which programs read a registry or a list of diagnostics, in the
order in which they are written. The body of a class is left out.
-/

namespace ChaiBind

open Text

/-- A parameter as it is declared, with its type and its name apart. -/
def Param.json (p : Param) : JsonValue :=
  .object [("decl", .string p.decl), ("ty", .string p.type), ("name", .ofOption p.name)]

/-- One overload of a method. -/
def Overload.json (o : Overload) : JsonValue :=
  .object [("return_type", .string o.returnType), ("params", .array (o.params.map (·.json))),
    ("is_overloaded", .bool o.isOverloaded), ("is_static", .bool o.isStatic),
    ("is_const", .bool o.isConst)]

/-- The methods by their names, each with all its overloads. -/
def MethodTable.json (t : MethodTable) : JsonValue :=
  .object (t.entries.map fun e => (e.1, .array (e.2.map (·.json))))

/-- A class without its body. -/
def ScriptClass.json (c : ScriptClass) : JsonValue :=
  .object [("name", .string c.name), ("namespace", .ofOption c.scope),
    ("include", .string c.includePath), ("path", .string c.path), ("bases", .strings c.bases),
    ("ancestors", .strings c.ancestors), ("methods", MethodTable.json c.methods)]

/-- An enumeration with the names of its values. -/
def Enumeration.json (e : Enumeration) : JsonValue :=
  .object [("name", .string e.name), ("namespace", .ofOption e.scope),
    ("include", .string e.includePath), ("path", .string e.path), ("scoped", .bool e.isScoped),
    ("values", .strings e.values)]

/-- The classes and enumerations by their names, and the namespaces in use. -/
def Registry.json (r : Registry) : JsonValue :=
  .object [("classes", .object (r.classes.entries.map fun e => (e.1, e.2.json))),
    ("enums", .object (r.enums.entries.map fun e => (e.1, e.2.json))),
    ("namespaces", .strings r.scopes)]

/-- A location with the numbers that its words hold. -/
def locationJson (l : StoredLocation) : JsonValue :=
  .object [("offset", .number l.offset), ("line", .number l.line.toNat),
    ("column", .number l.column.toNat)]

/-- A diagnostic, in which what is not known is null. -/
def Diagnostic.json (d : Diagnostic) : JsonValue :=
  .object [("severity", .string d.severity.label), ("code", .string d.code),
    ("message", .string d.message), ("help", .ofOption d.help), ("path", .ofOption d.path),
    ("location", d.location.elim .null fun l => locationJson l.stored)]

/-- The text of diagnostics in one line. -/
def Diagnostic.listJson (ds : List Diagnostic) : String := (JsonValue.array (ds.map json)).compact

end ChaiBind
