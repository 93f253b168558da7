import ChaiBind.Yaml.Token

/-!
# Nodes

A document as a tree of scalars, sequences and mappings, read off its tokens.
Where a node may stand but none is written, there is an empty plain scalar. An
alias stands for the node that bore its anchor last; inside that node itself it
stands for an empty collection of the same kind.

The readers take a number of steps; each step passes over a token or goes one
level deeper at a token that the next step passes over.
-/

namespace ChaiBind.Yaml

/-- A value of a document. -/
inductive Node
  | scalar (isPlain : Bool) (text : List Char)
  | sequence (items : List Node)
  | mapping (entries : List (Node × Node))

namespace Node

/-- The node that stands where none is written. -/
def blank : Node := .scalar true []

/-- A value that is not written. -/
def isBlank : Node → Bool
  | .scalar true [] => true
  | _ => false

/-- What has been read of a document. -/
structure Reading where
  tokens : List Token
  /-- The handles that tags may use. -/
  handles : List (List Char)
  /-- Anchors with the numbers of their nodes, the latest first. -/
  anchors : List (List Char × Nat)
  /-- The anchored nodes in the order in which they started. -/
  anchored : Array Node

/-- Reading the tokens of a document. -/
abbrev Reader := StateT Reading (Except Error)

namespace Reader

/-- The next token. -/
def peek : Reader (Option Token) := return (← get).tokens.head?

/-- Passes the next token. -/
def advance : Reader Unit := modify fun r => { r with tokens := r.tokens.tail }

/-- Passes over a token if it is the next one, and says whether it was. -/
def accept (t : Token) : Reader Bool := do
  if (← peek) = some t then
    advance
    return true
  else return false

/-- Whether the next token is one of some. -/
def isNext (ts : List Token) : Reader Bool := return (← peek).any ts.contains

/-- Fails at the next token. -/
def fail : Reader α := throw .unexpectedToken

/-- Passes over the comma between two items in brackets. -/
def separator : Reader Unit := do
  unless ← accept .flowEntry do fail

/-! ## Properties -/

/-- The anchor that comes next, if one does. -/
def takeAnchor : Reader (Option (List Char)) := do
  match ← peek with
  | some (.anchor name) =>
    advance
    return some name
  | _ => return none

/-- Fails if the handle of a tag is not defined. -/
def checkTag (t : Tag) : Reader Unit := do
  unless t.handle = [] || (← get).handles.contains t.handle do throw .undefinedTagHandle

/-- The tag that comes next, if one does. -/
def takeTag : Reader (Option Tag) := do
  match ← peek with
  | some (.tag t) =>
    advance
    return some t
  | _ => return none

/-- The anchor before a node, and whether the node has an anchor or a tag, which come in either
order. -/
def properties : Reader (Option (List Char) × Bool) := do
  let first ← takeAnchor
  let tag ← takeTag
  let anchor ← if first.isSome then pure first else if tag.isSome then takeAnchor else pure none
  tag.forM checkTag
  return (anchor, anchor.isSome || tag.isSome)

/-! ## Anchors -/

/-- Reads a node under an anchor, if there is one. Until it is read, `kind` stands for it. -/
def anchoring (anchor : Option (List Char)) (kind : Node) (content : Reader Node) :
    Reader Node := do
  match anchor with
  | none => content
  | some name =>
    let number := (← get).anchored.size
    modify fun r =>
      { r with anchors := (name, number) :: r.anchors, anchored := r.anchored.push kind }
    let node ← content
    modify fun r => { r with anchored := r.anchored.setIfInBounds number node }
    return node

/-- The value that an alias stands for. -/
def aliased (name : List Char) : Reader Node := do
  let r ← get
  match (r.anchors.lookup name).bind (r.anchored[·]?) with
  | some node => return node
  | none => throw .undefinedAlias

/-! ## Nodes -/

mutual

/-- A node. A block collection may stand here if `inBlock`, and a sequence that is not indented if
`indentless`. -/
def node (inBlock indentless : Bool) : Nat → Reader Node
  | 0 => fail
  | n + 1 => do
    match ← peek with
    | some (.alias name) =>
      advance
      aliased name
    | _ =>
      let (anchor, hasProperties) ← properties
      match ← peek with
      | some (.scalar isPlain text) =>
        advance
        anchoring anchor blank (pure (.scalar isPlain text))
      | some .flowSequenceStart =>
        advance
        anchoring anchor (.sequence []) (.sequence <$> flowItems true n)
      | some .flowMappingStart =>
        advance
        anchoring anchor (.mapping []) (.mapping <$> flowEntries true n)
      | t =>
        if indentless && t = some .blockEntry then
          anchoring anchor (.sequence []) (.sequence <$> indentlessItems n)
        else if inBlock && t = some .blockSequenceStart then
          advance
          anchoring anchor (.sequence []) (.sequence <$> blockItems n)
        else if inBlock && t = some .blockMappingStart then
          advance
          anchoring anchor (.mapping []) (.mapping <$> blockEntries n)
        else if hasProperties then anchoring anchor blank (pure blank)
        else fail

/-- A node, or the empty one if one of some tokens comes next. -/
def nodeBefore (inBlock indentless : Bool) (ends : List Token) : Nat → Reader Node
  | 0 => fail
  | n + 1 => do
    if ← isNext ends then return blank
    node inBlock indentless n

/-- The items of a block sequence up to its end. -/
def blockItems : Nat → Reader (List Node)
  | 0 => fail
  | n + 1 => do
    if ← accept .blockEntry then
      let item ← nodeBefore true false [.blockEntry, .blockEnd] n
      return item :: (← blockItems n)
    else if ← accept .blockEnd then return []
    else fail

/-- The items of a sequence that is not indented. -/
def indentlessItems : Nat → Reader (List Node)
  | 0 => fail
  | n + 1 => do
    if ← accept .blockEntry then
      let item ← nodeBefore true false [.blockEntry, .key, .value, .blockEnd] n
      return item :: (← indentlessItems n)
    else return []

/-- The entries of a block mapping up to its end. -/
def blockEntries : Nat → Reader (List (Node × Node))
  | 0 => fail
  | n + 1 => do
    if ← accept .blockEnd then return []
    else if ← accept .key then
      let key ← nodeBefore true true [.key, .value, .blockEnd] n
      let value ← if ← accept .value then nodeBefore true true [.key, .value, .blockEnd] n
        else pure blank
      return (key, value) :: (← blockEntries n)
    else fail

/-- The value after a key inside brackets, if there is one. -/
def flowValue (ends : List Token) : Nat → Reader Node
  | 0 => fail
  | n + 1 => do
    if ← accept .value then nodeBefore false false ends n
    else return blank

/-- A mapping of one entry in a flow sequence, after its key token. A token that ends the key where
none is written is passed over. -/
def flowPair : Nat → Reader Node
  | 0 => fail
  | n + 1 => do
    let ends := [.flowEntry, .flowSequenceEnd]
    let key ← if ← isNext (.value :: ends) then
        advance
        pure blank
      else node false false n
    return .mapping [(key, ← flowValue ends n)]

/-- The items of a flow sequence up to its end. -/
def flowItems (isFirst : Bool) : Nat → Reader (List Node)
  | 0 => fail
  | n + 1 => do
    if ← accept .flowSequenceEnd then return []
    unless isFirst do separator
    if ← accept .flowSequenceEnd then return []
    let item ← if ← accept .key then flowPair n else node false false n
    return item :: (← flowItems false n)

/-- The entries of a flow mapping up to its end. -/
def flowEntries (isFirst : Bool) : Nat → Reader (List (Node × Node))
  | 0 => fail
  | n + 1 => do
    if ← accept .flowMappingEnd then return []
    unless isFirst do separator
    if ← accept .flowMappingEnd then return []
    let entry ← if ← accept .key then
        let key ← nodeBefore false false [.value, .flowEntry, .flowMappingEnd] n
        pure (key, ← flowValue [.flowEntry, .flowMappingEnd] n)
      else pure (← node false false n, blank)
    return entry :: (← flowEntries false n)

end

/-! ## Documents -/

/-- The versions of YAML that are read. -/
def supportedVersion (major minor : Nat) : Bool := major = 1 && (minor = 1 || minor = 2)

/-- The directives before a document; `seen` says that one has given the version. -/
def directives (seen : Bool) : Nat → Reader Unit
  | 0 => fail
  | n + 1 => do
    match ← peek with
    | some (.directive (.version major minor)) =>
      if seen || !supportedVersion major minor then throw .invalidDirective
      advance
      directives true n
    | some (.directive (.tag handle _)) =>
      if (← get).handles.contains handle then throw .invalidDirective
      advance
      modify fun r => { r with handles := handle :: r.handles }
      directives seen n
    | _ => return ()

/-- Whether a token is a directive. -/
def isDirective : Token → Bool
  | .directive _ => true
  | _ => false

/-- The handles that tags may use in any document. -/
def primaryHandles : List (List Char) := [['!'], ['!', '!']]

/-- The root after the start of a document. -/
def root (n : Nat) : Reader Node := do
  match ← peek with
  | none => return blank
  | some t =>
    if isDirective t || t = .documentStart || t = .documentEnd then return blank
    node true false n

/-- The first document. -/
def document (n : Nat) : Reader Node := do
  match ← peek with
  | some t =>
    if isDirective t || t = .documentStart then
      directives false n
      unless ← accept .documentStart do fail
      modify fun r => { r with handles := primaryHandles ++ r.handles }
      root n
    else
      modify fun r => { r with handles := primaryHandles }
      node true false n
  | none => fail

/-- The tokens after some ends of documents. -/
def afterEnds (ts : List Token) : List Token := ts.dropWhile (· = .documentEnd)

end Reader

/-- The root of the only document of a stream, `none` if the stream is empty. -/
def ofTokens (ts : List Token) : Except Error (Option Node) := do
  if ts.isEmpty then return none
  let (node, r) ← (Reader.document (4 * ts.length + 4)).run ⟨ts, [], [], #[]⟩
  if (Reader.afterEnds r.tokens).isEmpty then return some node else throw .severalDocuments

/-- The root of the only document that a text holds. -/
def ofText (cs : List Char) : Except Error (Option Node) := do ofTokens (← Token.ofText cs)

end Node

end ChaiBind.Yaml
