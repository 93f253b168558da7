/-!
# JSON values and their texts

A value with its fields in order, and two texts for it: compact, without any
white space, and indented by two spaces a level. A string escapes its quotes,
its backslashes and the control characters of ASCII, and nothing else.
-/

namespace ChaiBind

/-- A value, whose fields are in order. -/
inductive JsonValue
  | null
  | bool (b : Bool)
  | number (n : Nat)
  | string (s : String)
  | array (items : List JsonValue)
  | object (fields : List (String × JsonValue))

namespace JsonValue

/-- A text that may be missing. -/
def ofOption : Option String → JsonValue
  | some s => .string s
  | none => .null

/-- An array of texts. -/
def strings (ss : List String) : JsonValue := .array (ss.map .string)

/-- A control character by its number, in two digits after `u00`. -/
def escapeControl (c : Char) : List Char :=
  ['\\', 'u', '0', '0', Nat.digitChar (c.toNat / 16), Nat.digitChar (c.toNat % 16)]

/-- A character as it stands in a string. -/
def escapeChar (c : Char) : List Char :=
  if c = '"' then ['\\', '"']
  else if c = '\\' then ['\\', '\\']
  else if c = '\x08' then ['\\', 'b']
  else if c = '\x0c' then ['\\', 'f']
  else if c = '\n' then ['\\', 'n']
  else if c = '\r' then ['\\', 'r']
  else if c = '\t' then ['\\', 't']
  else if c.toNat < 0x20 then escapeControl c
  else [c]

/-- A string between quotes. -/
def quote (s : String) : String := "\"" ++ String.ofList (s.toList.flatMap escapeChar) ++ "\""

/-- The text of a value that is neither an array nor an object. -/
def scalarText : JsonValue → String
  | .bool true => "true"
  | .bool false => "false"
  | .number n => toString n
  | .string s => quote s
  | _ => "null"

mutual

/-- The text of a value without white space. -/
def compact : JsonValue → String
  | .array items => "[" ++ ",".intercalate (compactItems items) ++ "]"
  | .object fields => "\x7b" ++ ",".intercalate (compactFields fields) ++ "\x7d"
  | v => v.scalarText

/-- The texts of items without white space. -/
def compactItems : List JsonValue → List String
  | [] => []
  | v :: vs => v.compact :: compactItems vs

/-- The texts of fields without white space. -/
def compactFields : List (String × JsonValue) → List String
  | [] => []
  | (k, v) :: fields => (quote k ++ ":" ++ v.compact) :: compactFields fields

end

/-- Texts between brackets, each on a line of its own, indented one level deeper than the closing
bracket; the brackets alone if there are none. -/
def bracketed (opening closing indent : String) (texts : List String) : String :=
  if texts.isEmpty then opening ++ closing
  else opening ++ "\n" ++ ",\n".intercalate (texts.map (indent ++ "  " ++ ·)) ++ "\n" ++ indent ++
    closing

mutual

/-- The text of a value over several lines, given the indentation of the line on which it starts. -/
def indented (indent : String) : JsonValue → String
  | .array items => bracketed "[" "]" indent (indentedItems (indent ++ "  ") items)
  | .object fields => bracketed "\x7b" "\x7d" indent (indentedFields (indent ++ "  ") fields)
  | v => v.scalarText

/-- The texts of items that start in some column. -/
def indentedItems (indent : String) : List JsonValue → List String
  | [] => []
  | v :: vs => v.indented indent :: indentedItems indent vs

/-- The texts of fields that start in some column. -/
def indentedFields (indent : String) : List (String × JsonValue) → List String
  | [] => []
  | (k, v) :: fields => (quote k ++ ": " ++ v.indented indent) :: indentedFields indent fields

end

/-- The text of a value over several lines. -/
def pretty (v : JsonValue) : String := v.indented ""

end JsonValue

end ChaiBind
