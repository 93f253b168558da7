import ChaiBind.Yaml.Scalar

/-!
# Anchors, tags and directives

What may stand before a node or before a document. A tag is a handle and a
suffix, either of which may be empty; which handles a document may use is said by
its directives.
-/

namespace ChaiBind.Yaml

/-! ## Anchors -/

/-- The name of an anchor or an alias after its indicator. -/
def takeAnchorName (p : Place) : Except Error (List Char × Place) :=
  let (name, q) := p.takeRun isNameChar
  let ends := q.isOpenAt 0 || q.peek.any fun c => "?:,]\x7d%@`".toList.contains c
  if name = [] || !ends then .error .invalidName else .ok (name, q)

/-! ## Tags -/

/-- A tag, in two parts. -/
structure Tag where
  /-- Empty for a tag that is written out. -/
  handle : List Char
  suffix : List Char
deriving DecidableEq, Repr

/-- The characters of a tag's text; those of `inBrackets` only where commas and brackets cannot end
a collection. -/
def isUriChar (inBrackets : Bool) (c : Char) : Bool :=
  isNameChar c || ";/?:@&=+$.!~*'()".toList.contains c ||
    (inBrackets && (c = ',' || c = '[' || c = ']'))

/-- The octet that a percent sign and two digits stand for. -/
def takeOctet (p : Place) : Except Error (Nat × Place) :=
  match p.rest with
  | '%' :: a :: b :: _ =>
    match hexValue? [a, b] with
    | some n => .ok (n, p.skipMany 3)
    | none => .error .invalidTag
  | _ => .error .invalidTag

/-- Passes over the octets that continue an encoded character. -/
def skipOctets : Nat → Place → Except Error Place
  | 0, p => .ok p
  | n + 1, p => do
    let (octet, p) ← takeOctet p
    if octet / 64 ≠ 2 then throw .invalidTag
    skipOctets n p

/-- The number of octets that continue a character encoded in UTF-8, given its first octet. -/
def octetsAfter? (octet : Nat) : Option Nat :=
  if octet < 0x80 then some 0
  else if octet / 32 = 6 then some 1
  else if octet / 16 = 14 then some 2
  else if octet / 8 = 30 then some 3
  else none

/-- The text of a tag; a character in octets counts as a percent sign. -/
def takeUri (inBrackets : Bool) : Nat → Place → Except Error (List Char × Place)
  | 0, p => .ok ([], p)
  | n + 1, p =>
    match p.peek with
    | none => .ok ([], p)
    | some c =>
      if c = '%' then do
        let (octet, p) ← takeOctet p
        match octetsAfter? octet with
        | none => throw .invalidTag
        | some k =>
          let p ← skipOctets k p
          let (more, p) ← takeUri inBrackets n p
          return ('%' :: more, p)
      else if isUriChar inBrackets c then do
        let (more, p) ← takeUri inBrackets n p.skip
        return (c :: more, p)
      else .ok ([], p)

/-- A handle: an exclamation mark, a name, and another mark if there is one. -/
def takeHandle (p : Place) : Except Error (List Char × Place) :=
  if !p.has '!' then .error .invalidTag
  else
    let (name, q) := p.skip.takeRun isNameChar
    if q.has '!' then .ok ('!' :: name ++ ['!'], q.skip) else .ok ('!' :: name, q)

/-- A handle that may stand before a suffix: it ends in a mark of its own. -/
def isNamedHandle (handle : List Char) : Bool :=
  1 < handle.length && handle.getLast? = some '!'

/-- A tag written out between angle brackets, after its mark. -/
def takeVerbatimTag (p : Place) : Except Error (Tag × Place) := do
  let (uri, p) ← takeUri true (p.rest.length + 1) p.skip
  if uri = [] || !p.has '>' then throw .invalidTag
  return (⟨[], uri⟩, p.skip)

/-- A tag with a handle of its own, or with the primary one. -/
def takeShorthandTag (p : Place) : Except Error (Tag × Place) := do
  let (handle, p) ← takeHandle p
  let (uri, p) ← takeUri false (p.rest.length + 1) p
  if isNamedHandle handle then
    if uri = [] then throw .invalidTag
    return (⟨handle, uri⟩, p)
  let suffix := handle.tail ++ uri
  return (if suffix = [] then ⟨[], ['!']⟩ else ⟨['!'], suffix⟩, p)

/-- A tag, which a space, a break or, inside brackets, a comma has to follow. -/
def takeTag (inFlow : Bool) (p : Place) : Except Error (Tag × Place) := do
  let (tag, p) ← if p.rest[1]? = some '<' then takeVerbatimTag p.skip else takeShorthandTag p
  if p.isOpenAt 0 || (inFlow && p.has ',') then return (tag, p) else throw .invalidTag

/-! ## Directives -/

/-- A line of settings in front of a document. -/
inductive Directive
  | version (major minor : Nat)
  | tag (handle uri : List Char)
deriving DecidableEq, Repr

/-- A number of at most nine digits. -/
def takeVersionNumber (p : Place) : Except Error (Nat × Place) :=
  let (digits, q) := p.takeRun Char.isDigit
  if digits = [] || 9 < digits.length then .error .invalidDirective
  else .ok (digits.foldl (fun n c => 10 * n + (c.toNat - '0'.toNat)) 0, q)

/-- The version of a directive, in two numbers. -/
def takeVersion (p : Place) : Except Error (Directive × Place) := do
  let (major, p) ← takeVersionNumber p.skipGaps
  if !p.has '.' then throw .invalidDirective
  let (minor, p) ← takeVersionNumber p.skip
  return (.version major minor, p)

/-- The handle of a directive is the primary one, or one with two marks. -/
def takeTagDirective (p : Place) : Except Error (Directive × Place) := do
  let (handle, p) ← takeHandle p.skipGaps
  if handle ≠ ['!'] && !isNamedHandle handle then throw .invalidDirective
  if !p.atGap then throw .invalidDirective
  let p := p.skipGaps
  let (uri, p) ← takeUri true (p.rest.length + 1) p
  if uri = [] || !p.isOpenAt 0 then throw .invalidDirective
  return (.tag handle uri, p)

/-- A directive after its percent sign, with the rest of its line. -/
def takeDirective (p : Place) : Except Error (Directive × Place) := do
  let (name, p) := p.takeRun isNameChar
  if !p.isOpenAt 0 then throw .invalidDirective
  let (directive, p) ←
    if name = "YAML".toList then takeVersion p
    else if name = "TAG".toList then takeTagDirective p
    else throw .invalidDirective
  let p := p.skipGaps.skipComment
  if !p.endsLineAt 0 then throw .invalidDirective
  return (directive, p.skipBreak)

end ChaiBind.Yaml
