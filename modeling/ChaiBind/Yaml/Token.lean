import ChaiBind.Yaml.Property

/-!
# Tokens

The tokens of a stream. Besides what is written, block collections have tokens
for their starts and ends, which indentation tells: a column right of the current
indentation opens a collection where an entry or a key stands, and a line left of
it closes collections.

That a scalar is a key is known only at the colon after it. So the place of each
token that may be a key is kept, one for each level of brackets, until a line
ends or 1024 characters have gone by; a colon before that puts a key token in
front of it.
-/

namespace ChaiBind.Yaml

/-- What a document is made of. -/
inductive Token
  | directive (d : Directive)
  | documentStart
  | documentEnd
  | blockSequenceStart
  | blockMappingStart
  | blockEnd
  | flowSequenceStart
  | flowSequenceEnd
  | flowMappingStart
  | flowMappingEnd
  /-- The dash of a block sequence. -/
  | blockEntry
  /-- The comma of a flow collection. -/
  | flowEntry
  | key
  | value
  | alias (name : List Char)
  | anchor (name : List Char)
  | tag (t : Tag)
  | scalar (isPlain : Bool) (text : List Char)
deriving DecidableEq, Repr

/-- A place at which a key may have started. -/
structure KeyStart where
  /-- A token at the indentation of a block mapping has to be a key. -/
  isRequired : Bool
  /-- The number of tokens before it. -/
  position : Nat
  index : Nat
  line : Nat
  column : Nat
deriving DecidableEq, Repr

/-- How far a stream has been read. -/
structure Scanning where
  place : Place
  tokens : Array Token
  /-- The indentation of the innermost block collection, `-1` if there is none. -/
  indent : Int
  /-- The indentations of the collections around it. -/
  outer : List Int
  /-- Whether a key may start here. -/
  keyAllowed : Bool
  /-- The key that may have started on this level of brackets. -/
  key? : Option KeyStart
  /-- The same for the levels around it. -/
  outerKeys : List (Option KeyStart)

namespace Scanning

/-- Before the first token of a text. -/
def start (cs : List Char) : Scanning := ⟨.start cs, #[], -1, [], true, none, []⟩

/-- Whether a sequence or a mapping in brackets is open. -/
def inFlow (s : Scanning) : Bool := !s.outerKeys.isEmpty

/-- With one more token. -/
def push (s : Scanning) (t : Token) : Scanning := { s with tokens := s.tokens.push t }

/-- Puts a token in front of those from a position on. -/
def insertToken (s : Scanning) (position : Nat) (t : Token) : Scanning :=
  { s with tokens := s.tokens.take position |>.push t |>.append (s.tokens.drop position) }

/-- The column of the place. -/
def column (s : Scanning) : Int := s.place.column

/-! ## Possible keys -/

/-- Gives up the key that may have started on this level. -/
def dropKey (s : Scanning) : Except Error Scanning :=
  if s.key?.any (·.isRequired) then .error .keyWithoutColon else .ok { s with key? := none }

/-- Remembers that a key may start here, if one is allowed. -/
def saveKey (s : Scanning) : Except Error Scanning :=
  if !s.keyAllowed then .ok s
  else do
    let s ← s.dropKey
    let isRequired := !s.inFlow && s.indent = s.column
    return { s with
      key? := some ⟨isRequired, s.tokens.size, s.place.index, s.place.line, s.place.column⟩ }

/-- A possible key is lost once its line has ended or 1024 characters have gone by. -/
def isStale (s : Scanning) (k : KeyStart) : Bool :=
  k.line < s.place.line || k.index + 1024 < s.place.index

/-- What is left of a possible key that may be stale. -/
def expire (s : Scanning) (k : Option KeyStart) : Except Error (Option KeyStart) :=
  match k with
  | some k =>
    if !s.isStale k then .ok (some k)
    else if k.isRequired then .error .keyWithoutColon
    else .ok none
  | none => .ok none

/-- Gives up the possible keys that are stale. -/
def expireKeys (s : Scanning) : Except Error Scanning := do
  let outerKeys ← s.outerKeys.mapM s.expire
  let key? ← s.expire s.key?
  return { s with key?, outerKeys }

/-! ## Indentation -/

/-- Opens a block collection at a column right of the indentation, with its token in front of those
from a position on. -/
def indentTo (s : Scanning) (column : Int) (position : Nat) (opening : Token) : Scanning :=
  if s.inFlow || column ≤ s.indent then s
  else { s.insertToken position opening with indent := column, outer := s.indent :: s.outer }

/-- The tokens, the indentation and the indentations around it after closing all collections right
of a column. -/
def closeBlocks (column : Int) : List Int → Array Token → Int → Array Token × Int × List Int
  | [], tokens, indent => (tokens, indent, [])
  | o :: outer, tokens, indent =>
    if column < indent then closeBlocks column outer (tokens.push .blockEnd) o
    else (tokens, indent, o :: outer)

/-- Closes the blocks that are indented deeper than a column. -/
def unindentTo (s : Scanning) (column : Int) : Scanning :=
  if s.inFlow then s
  else
    let (tokens, indent, outer) := closeBlocks column s.outer s.tokens s.indent
    { s with tokens, indent, outer }

/-! ## Blanks and comments -/

/-- Passes over spaces, comments and breaks. A tab counts as space only where no key can start. -/
def skipBlanks : Nat → Scanning → Scanning
  | 0, s => s
  | n + 1, s =>
    let tabs := s.inFlow || !s.keyAllowed
    let p := (s.place.takeRun fun c => c = ' ' || (tabs && c = '\t')).2.skipComment
    if p.atBreak then
      skipBlanks n { s with place := p.skipBreak, keyAllowed := s.keyAllowed || !s.inFlow }
    else { s with place := p }

/-! ## One token at a time -/

/-- Emits a token written by `n` characters. -/
def emit (s : Scanning) (t : Token) (n : Nat) : Scanning :=
  { s.push t with place := s.place.skipMany n }

/-- Takes the marker at the start or the end of a document. -/
def scanDocumentMarker (s : Scanning) (t : Token) : Except Error Scanning := do
  let s ← (s.unindentTo (-1)).dropKey
  return { s.emit t 3 with keyAllowed := false }

/-- Takes a directive. -/
def scanDirective (s : Scanning) : Except Error Scanning := do
  let s ← (s.unindentTo (-1)).dropKey
  let (d, place) ← takeDirective s.place.skip
  return { s.push (.directive d) with place, keyAllowed := false }

/-- Takes an opening bracket. -/
def scanFlowStart (s : Scanning) (t : Token) : Except Error Scanning := do
  let s ← s.saveKey
  return { s.emit t 1 with keyAllowed := true, key? := none, outerKeys := s.key? :: s.outerKeys }

/-- Takes a closing bracket. -/
def scanFlowEnd (s : Scanning) (t : Token) : Except Error Scanning := do
  let s ← s.dropKey
  let s := { s.emit t 1 with keyAllowed := false }
  match s.outerKeys with
  | k :: outerKeys => return { s with key? := k, outerKeys }
  | [] => return s

/-- Takes a comma between entries. -/
def scanFlowEntry (s : Scanning) : Except Error Scanning := do
  let s ← s.dropKey
  return { s.emit .flowEntry 1 with keyAllowed := true }

/-- Opens a block collection at an indicator, outside brackets, if a key may start there. -/
def openBlock (s : Scanning) (opening : Token) : Except Error Scanning :=
  if s.inFlow then .ok s
  else if !s.keyAllowed then .error .misplacedIndicator
  else .ok (s.indentTo s.column s.tokens.size opening)

/-- Takes the dash in front of an entry. -/
def scanBlockEntry (s : Scanning) : Except Error Scanning := do
  let s ← (← s.openBlock .blockSequenceStart).dropKey
  return { s.emit .blockEntry 1 with keyAllowed := true }

/-- Takes the question mark in front of a key. -/
def scanKey (s : Scanning) : Except Error Scanning := do
  let s ← (← s.openBlock .blockMappingStart).dropKey
  return { s.emit .key 1 with keyAllowed := !s.inFlow }

/-- Takes the colon behind a key, where the key may turn out to have started. -/
def scanValue (s : Scanning) : Except Error Scanning :=
  match s.key? with
  | some k =>
    let s := (s.insertToken k.position .key).indentTo k.column k.position .blockMappingStart
    .ok { s.emit .value 1 with key? := none, keyAllowed := false }
  | none => do
    let s ← s.openBlock .blockMappingStart
    return { s.emit .value 1 with keyAllowed := !s.inFlow }

/-- Emits a token that may be a key or stand before one. -/
def scanContent (s : Scanning) (take : Place → Except Error (Token × Place)) :
    Except Error Scanning := do
  let s ← s.saveKey
  let (t, place) ← take s.place
  return { s.push t with place, keyAllowed := false }

/-- Takes a text of indented lines. -/
def scanBlockScalar (s : Scanning) (literal : Bool) : Except Error Scanning := do
  let s ← s.dropKey
  let (text, place) ← takeBlock literal s.indent s.place.skip
  return { s.push (.scalar false text) with place, keyAllowed := true }

/-- Takes a text without quotes. -/
def scanPlain (s : Scanning) : Except Error Scanning := do
  let s ← s.saveKey
  let (text, broken, place) ←
    takePlain s.inFlow (s.indent + 1) (s.place.rest.length + 1) .none s.place
  return { s.push (.scalar true text) with place, keyAllowed := broken }

/-- A text in quotes. -/
def takeQuotedToken (quote : Char) (p : Place) : Except Error (Token × Place) := do
  let (text, p) ← takeQuoted quote (p.rest.length + 1) p.skip
  return (.scalar false text, p)

/-- An anchor or an alias. -/
def takeAnchorToken (token : List Char → Token) (p : Place) : Except Error (Token × Place) := do
  let (name, p) ← takeAnchorName p.skip
  return (token name, p)

/-- A tag. -/
def takeTagToken (inFlow : Bool) (p : Place) : Except Error (Token × Place) := do
  let (t, p) ← takeTag inFlow p
  return (.tag t, p)

/-- A character that only stands for itself inside a scalar. -/
def isIndicator (c : Char) : Bool := "-?:,[]\x7b\x7d#&*!|>'\"%@`".toList.contains c

/-- A plain scalar may start with a dash, and outside brackets with a question mark or a colon, if
text follows directly. -/
def startsPlain (s : Scanning) (c : Char) : Bool :=
  !(isIndicator c || isGap c || isBreak c) ||
    (c = '-' && !s.place.rest[1]?.any isGap) ||
    (!s.inFlow && (c = '?' || c = ':') && !s.place.isOpenAt 1)

/-- The token that starts with a character. -/
def scanFrom (s : Scanning) (c : Char) : Except Error Scanning :=
  let p := s.place
  if p.column = 0 && c = '%' then s.scanDirective
  else if p.atDocumentMarker then
    s.scanDocumentMarker (if c = '-' then .documentStart else .documentEnd)
  else if c = '[' then s.scanFlowStart .flowSequenceStart
  else if c = '\x7b' then s.scanFlowStart .flowMappingStart
  else if c = ']' then s.scanFlowEnd .flowSequenceEnd
  else if c = '\x7d' then s.scanFlowEnd .flowMappingEnd
  else if c = ',' then s.scanFlowEntry
  else if c = '-' && p.isOpenAt 1 then s.scanBlockEntry
  else if c = '?' && (s.inFlow || p.isOpenAt 1) then s.scanKey
  else if c = ':' && (s.inFlow || p.isOpenAt 1) then s.scanValue
  else if c = '*' then s.scanContent (takeAnchorToken .alias)
  else if c = '&' then s.scanContent (takeAnchorToken .anchor)
  else if c = '!' then s.scanContent (takeTagToken s.inFlow)
  else if c = '|' && !s.inFlow then s.scanBlockScalar true
  else if c = '>' && !s.inFlow then s.scanBlockScalar false
  else if c = '\'' || c = '"' then s.scanContent (takeQuotedToken c)
  else if s.startsPlain c then s.scanPlain
  else .error .unexpectedCharacter

/-- The tokens of the stream from here on. Each step passes over a character at least. -/
def scanAll : Nat → Scanning → Except Error (List Token)
  | 0, s => .ok s.tokens.toList
  | n + 1, s => do
    let s ← (skipBlanks (s.place.rest.length + 1) s).expireKeys
    let s := s.unindentTo s.column
    match s.place.peek with
    | some c => scanAll n (← s.scanFrom c)
    | none =>
      let s ← (s.unindentTo (-1)).dropKey
      return s.tokens.toList

end Scanning

/-- The tokens of a stream. -/
def Token.ofText (cs : List Char) : Except Error (List Token) :=
  if cs.all isAllowed then Scanning.scanAll (cs.length + 1) (.start cs)
  else .error .controlCharacter

end ChaiBind.Yaml
