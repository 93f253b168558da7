/-!
# Places in a YAML stream

The text that is left of a stream together with where it starts: the number of
characters before it, its line and its column. A place knows which indicators
stand there; five characters end a line, and a carriage return and a newline
together end one line.
-/

namespace ChaiBind.Yaml

/-- What is wrong with a stream. -/
inductive Error
  | controlCharacter
  | unexpectedCharacter
  | misplacedTab
  /-- A key, a value or an entry where the block structure does not allow one. -/
  | misplacedIndicator
  /-- A key that has to be followed by a colon and is not. -/
  | keyWithoutColon
  | unterminatedScalar
  | invalidEscape
  | invalidBlockHeader
  | invalidName
  | invalidTag
  | undefinedTagHandle
  | invalidDirective
  | unexpectedToken
  | undefinedAlias
  | severalDocuments
deriving DecidableEq, Repr

/-- A character that ends a line. -/
def isBreak (c : Char) : Bool :=
  c = '\n' || c = '\r' || c = '\u0085' || c = '\u2028' || c = '\u2029'

/-- A space or a tab. -/
def isGap (c : Char) : Bool := c = ' ' || c = '\t'

/-- The characters of anchors and tag handles. -/
def isNameChar (c : Char) : Bool := c.isAlphanum || c = '_' || c = '-'

/-- The characters that a stream may hold. -/
def isAllowed (c : Char) : Bool :=
  let n := c.toNat
  n = 0x09 || n = 0x0A || n = 0x0D || (0x20 ≤ n && n ≤ 0x7E) || n = 0x85 ||
    (0xA0 ≤ n && n ≤ 0xD7FF) || (0xE000 ≤ n && n ≤ 0xFFFD) || 0x10000 ≤ n

/-- A place in a document, counted in characters from zero. -/
structure Place where
  rest : List Char
  index : Nat
  line : Nat
  column : Nat
deriving DecidableEq, Repr

namespace Place

/-- Where a stream starts. A byte order mark there is passed over, but it takes up a column. -/
def start : List Char → Place
  | '\uFEFF' :: cs => ⟨cs, 1, 0, 1⟩
  | cs => ⟨cs, 0, 0, 0⟩

/-- The place after the next character, which does not end a line. -/
def skip (p : Place) : Place := ⟨p.rest.tail, p.index + 1, p.line, p.column + 1⟩

/-- The place some characters further on the same line. -/
def skipMany (p : Place) (n : Nat) : Place :=
  ⟨p.rest.drop n, p.index + n, p.line, p.column + n⟩

/-- The place after the line break that starts here. -/
def skipBreak (p : Place) : Place :=
  match p.rest with
  | '\r' :: '\n' :: cs => ⟨cs, p.index + 2, p.line + 1, 0⟩
  | _ :: cs => ⟨cs, p.index + 1, p.line + 1, 0⟩
  | [] => p

/-- The text of the line break that starts here: a newline, unless the break is one of the two
separators of Unicode. -/
def breakText (p : Place) : List Char :=
  match p.rest with
  | c :: _ => if c = '\u2028' || c = '\u2029' then [c] else if isBreak c then ['\n'] else []
  | [] => []

/-! ## What stands at a place -/

/-- The next character. -/
def peek (p : Place) : Option Char := p.rest.head?

/-- Whether a character comes next. -/
def has (p : Place) (c : Char) : Bool := p.peek = some c

/-- Whether nothing comes any more. -/
def atEnd (p : Place) : Bool := p.rest.isEmpty

/-- Whether a space or a tab comes next. -/
def atGap (p : Place) : Bool := p.peek.any isGap

/-- Whether the line ends here. -/
def atBreak (p : Place) : Bool := p.peek.any isBreak

/-- A break or the end of the stream `n` characters on. -/
def endsLineAt (p : Place) (n : Nat) : Bool := p.rest[n]?.all isBreak

/-- A space, a tab, a break or the end of the stream `n` characters on. -/
def isOpenAt (p : Place) (n : Nat) : Bool := p.rest[n]?.all fun c => isGap c || isBreak c

/-- A line starts here with the marker of a document's start or end. -/
def atDocumentMarker (p : Place) : Bool :=
  p.column = 0 && ((['-', '-', '-']).isPrefixOf p.rest || (['.', '.', '.']).isPrefixOf p.rest) &&
    p.isOpenAt 3

/-- The longest run of characters of a class, and the place after it. No character of the class may
end a line. -/
def takeRun (p : Place) (accept : Char → Bool) : List Char × Place :=
  let run := p.rest.takeWhile accept
  (run, p.skipMany run.length)

/-- The place behind spaces and tabs. -/
def skipGaps (p : Place) : Place := (p.takeRun isGap).2

/-- The place at the end of the line if a comment starts here. -/
def skipComment (p : Place) : Place :=
  if p.has '#' then (p.takeRun fun c => !isBreak c).2 else p

end Place

end ChaiBind.Yaml
