import ChaiBind.Text.Blank
import ChaiBind.Text.Identifier
import ChaiBind.Yaml.Node

/-!
# Configuration

Where headers are looked for, which files count as headers, what is left out,
and where the generated header goes. A configuration file is a YAML mapping in
which every field may be missing and unknown fields are passed over; an empty
file gives the defaults. Any scalar is read as its text, whatever it looks like.
-/

namespace ChaiBind

open Text

/-- The settings of a run. -/
structure Config where
  /-- The root of the header tree; include paths are relative to it. -/
  source : String
  /-- The path of the generated header. -/
  output : String
  /-- The extensions of headers, without the dot. -/
  extensions : List String
  /-- Patterns of paths that are left out. -/
  excludes : List String
  /-- The macro that guards the generated header. -/
  guardName : String
deriving DecidableEq, Repr

/-- What is wrong with a configuration file. -/
inductive ConfigError
  /-- No YAML, or a field of the wrong kind. -/
  | invalid
  | noExtensions
  | badGuard (name : String)
deriving DecidableEq, Repr

namespace Config

/-- The settings without a configuration file. -/
def defaults : Config :=
  { source := "./src"
    output := "./src/generated/generated_registrations.h"
    extensions := ["h", "hpp"]
    excludes := []
    guardName := "GENERATED_REGISTRATIONS_H" }

/-! ## Fields -/

/-- A field with the value that a configuration file gives it. -/
inductive Setting
  | source (path : String)
  | output (path : String)
  | extensions (names : List String)
  | excludes (patterns : List String)
  | guardName (name : String)

/-- A configuration with one field set. -/
def Setting.apply (s : Setting) (c : Config) : Config :=
  match s with
  | .source path => { c with source := path }
  | .output path => { c with output := path }
  | .extensions names => { c with extensions := names }
  | .excludes patterns => { c with excludes := patterns }
  | .guardName name => { c with guardName := name }

/-- The text of a scalar. -/
def textOf : Yaml.Node → Except ConfigError String
  | .scalar _ text => .ok (String.ofList text)
  | _ => .error .invalid

/-- The texts of a sequence; a value that is not written is an empty one. -/
def textsOf (node : Yaml.Node) : Except ConfigError (List String) :=
  match node with
  | .sequence items => items.mapM textOf
  | _ => if node.isBlank then .ok [] else .error .invalid

/-- The setting of a field, `none` if no field has that name. -/
def settingOf (name : String) (value : Yaml.Node) : Except ConfigError (Option Setting) :=
  match name with
  | "source" => (some ∘ .source) <$> textOf value
  | "output" => (some ∘ .output) <$> textOf value
  | "extensions" => (some ∘ .extensions) <$> textsOf value
  | "excludes" => (some ∘ .excludes) <$> textsOf value
  | "guard" => (some ∘ .guardName) <$> textOf value
  | _ => .ok none

/-- Applies the entries of a mapping in turn; no field may be given twice. -/
def applyEntries : List String → Config → List (Yaml.Node × Yaml.Node) → Except ConfigError Config
  | _, c, [] => .ok c
  | given, c, (key, value) :: entries => do
    let name ← textOf key
    match ← settingOf name value with
    | none => applyEntries given c entries
    | some s =>
      if name ∈ given then throw .invalid
      applyEntries (name :: given) (s.apply c) entries

/-- The configuration that a document gives. -/
def ofNode (node : Yaml.Node) : Except ConfigError Config :=
  match node with
  | .mapping entries => applyEntries [] defaults entries
  | _ => if node.isBlank then .ok defaults else .error .invalid

/-! ## Files -/

/-- A configuration with an extension and a guard that is an identifier. -/
def check (c : Config) : Except ConfigError Config :=
  if c.extensions.isEmpty then .error .noExtensions
  else if !isAsciiIdentifier c.guardName.toList then .error (.badGuard c.guardName)
  else .ok c

/-- The configuration that a text gives. -/
def ofText (text : String) : Except ConfigError Config :=
  if allBlank text.toList then .ok defaults
  else
    match Yaml.Node.ofText text.toList with
    | .error _ => .error .invalid
    | .ok none => .ok defaults
    | .ok (some node) => (ofNode node).bind check

end Config

end ChaiBind
