import ChaiBind.Yaml.Place

/-!
# Scalars

The three ways to write a scalar: plain, between quotes, and as a block. In the
first two, a single line break between two lines of text reads as a space, and
further breaks stand for themselves (`Gap`); a block keeps its lines, or folds
them too, and its header says which of the breaks at its end stay.

The readers take a number of steps, which is never less than the number of
characters that are left.
-/

namespace ChaiBind.Yaml

/-- Spaces, tabs and breaks between two pieces of text. -/
structure Gap where
  /-- Spaces and tabs, as long as no break has come. -/
  spaces : List Char
  /-- Whether a break has come. -/
  broken : Bool
  /-- The first break, which may have been escaped. -/
  first : List Char
  /-- The breaks after the first. -/
  further : List Char
deriving DecidableEq, Repr

namespace Gap

/-- The gap in which nothing has come. -/
def none : Gap := ⟨[], false, [], []⟩

/-- A gap that starts with an escaped break. -/
def escaped : Gap := ⟨[], true, [], []⟩

/-- The text for which a gap stands. -/
def text (g : Gap) : List Char :=
  if !g.broken then g.spaces
  else if g.first ≠ ['\n'] then g.first ++ g.further
  else if g.further = [] then [' '] else g.further

/-- The gap after a space or a tab; those at the start of a line do not count. -/
def addSpace (g : Gap) (c : Char) : Gap :=
  if g.broken then g else { g with spaces := g.spaces ++ [c] }

/-- With one more end of a line. -/
def addBreak (g : Gap) (text : List Char) : Gap :=
  if g.broken then { g with further := g.further ++ text } else ⟨[], true, text, []⟩

end Gap

/-- The gap that starts at a place, after what has been read of it. A tab may not stand left of
`indent` at the start of a line. -/
def takeGap (indent : Int) : Nat → Gap → Place → Except Error (Gap × Place)
  | 0, g, p => .ok (g, p)
  | n + 1, g, p =>
    match p.peek with
    | none => .ok (g, p)
    | some c =>
      if isGap c then
        if g.broken && p.column < indent && c = '\t' then .error .misplacedTab
        else takeGap indent n (g.addSpace c) p.skip
      else if isBreak c then takeGap indent n (g.addBreak p.breakText) p.skipBreak
      else .ok (g, p)

/-! ## Plain scalars -/

/-- A character that ends a plain scalar inside brackets. -/
def isFlowIndicator (c : Char) : Bool := c = ',' || c = '[' || c = ']' || c = '\x7b' || c = '\x7d'

/-- The text up to the next space, break or indicator. -/
def takePlainRun (inFlow : Bool) : Nat → Place → Except Error (List Char × Place)
  | 0, p => .ok ([], p)
  | n + 1, p =>
    match p.peek with
    | none => .ok ([], p)
    | some c =>
      if isGap c || isBreak c then .ok ([], p)
      else if inFlow && c = ':' && p.rest[1]?.any (fun d => isFlowIndicator d || d = '?') then
        .error .unexpectedCharacter
      else if (c = ':' && p.isOpenAt 1) || (inFlow && isFlowIndicator c) then .ok ([], p)
      else do
        let (run, p) ← takePlainRun inFlow n p.skip
        return (c :: run, p)

/-- A plain scalar after a gap, whether a line has ended after it, and the place after it. Its
lines are indented by `indent` at least. -/
def takePlain (inFlow : Bool) (indent : Int) : Nat → Gap → Place →
    Except Error (List Char × Bool × Place)
  | 0, g, p => .ok ([], g.broken, p)
  | n + 1, g, p =>
    if p.atDocumentMarker || p.has '#' then .ok ([], g.broken, p)
    else do
      let (run, p) ← takePlainRun inFlow (p.rest.length + 1) p
      let (text, g) := if run = [] then ([], g) else (g.text ++ run, Gap.none)
      if !p.atGap && !p.atBreak then return (text, g.broken, p)
      let (g, p) ← takeGap indent (p.rest.length + 1) g p
      if !inFlow && p.column < indent then return (text, g.broken, p)
      let (more, broken, p) ← takePlain inFlow indent n g p
      return (text ++ more, broken, p)

/-! ## Quoted scalars -/

/-- The characters that a letter stands for after a backslash. -/
def escapeLetter? : Char → Option Char
  | '0' => some '\x00'
  | 'a' => some '\x07'
  | 'b' => some '\x08'
  | 't' | '\t' => some '\t'
  | 'n' => some '\n'
  | 'v' => some '\x0b'
  | 'f' => some '\x0c'
  | 'r' => some '\r'
  | 'e' => some '\x1b'
  | ' ' => some ' '
  | '"' => some '"'
  | '/' => some '/'
  | '\\' => some '\\'
  | 'N' => some '\u0085'
  | '_' => some '\u00a0'
  | 'L' => some '\u2028'
  | 'P' => some '\u2029'
  | _ => none

/-- The number of digits after a letter that gives a character by its number. -/
def escapeWidth? : Char → Option Nat
  | 'x' => some 2
  | 'u' => some 4
  | 'U' => some 8
  | _ => none

/-- The value of a digit. -/
def hexDigit? (c : Char) : Option Nat :=
  if c.isDigit then some (c.toNat - '0'.toNat)
  else if 'a' ≤ c ∧ c ≤ 'f' then some (c.toNat - 'a'.toNat + 10)
  else if 'A' ≤ c ∧ c ≤ 'F' then some (c.toNat - 'A'.toNat + 10)
  else none

/-- The number that digits make. -/
def hexValue? (cs : List Char) : Option Nat :=
  cs.foldlM (fun n c => (hexDigit? c).map (16 * n + ·)) 0

/-- The character that an escape after a backslash stands for, and the place after it. -/
def takeEscape (p : Place) : Except Error (Char × Place) :=
  match p.peek with
  | none => .error .invalidEscape
  | some letter =>
    match escapeLetter? letter, escapeWidth? letter with
    | some c, _ => .ok (c, p.skip)
    | none, none => .error .invalidEscape
    | none, some width =>
      let digits := p.rest.tail.take width
      match hexValue? digits with
      | none => .error .invalidEscape
      | some n =>
        if digits.length = width && n.isValidChar then .ok (Char.ofNat n, p.skipMany (1 + width))
        else .error .invalidEscape

/-- The text up to the next space, break or closing quote, and the gap that starts there, which is
not empty if the break after the text is escaped. -/
def takeQuotedRun (quote : Char) : Nat → Place → Except Error (List Char × Gap × Place)
  | 0, p => .ok ([], .none, p)
  | n + 1, p =>
    match p.peek with
    | none => .ok ([], .none, p)
    | some c =>
      if isGap c || isBreak c then .ok ([], .none, p)
      else if c = '\'' && quote = '\'' && p.rest[1]? = some '\'' then do
        let (run, g, p) ← takeQuotedRun quote n (p.skipMany 2)
        return ('\'' :: run, g, p)
      else if c = quote then .ok ([], .none, p)
      else if c = '\\' && quote = '"' then
        if p.skip.atBreak then .ok ([], .escaped, p.skip.skipBreak)
        else do
          let (e, p) ← takeEscape p.skip
          let (run, g, p) ← takeQuotedRun quote n p
          return (e :: run, g, p)
      else do
        let (run, g, p) ← takeQuotedRun quote n p.skip
        return (c :: run, g, p)

/-- A quoted scalar after its opening quote, and the place after its closing one. -/
def takeQuoted (quote : Char) : Nat → Place → Except Error (List Char × Place)
  | 0, _ => .error .unterminatedScalar
  | n + 1, p =>
    if p.atDocumentMarker || p.atEnd then .error .unterminatedScalar
    else do
      let (run, g, p) ← takeQuotedRun quote (p.rest.length + 1) p
      if p.has quote then return (run, p.skip)
      let (g, p) ← takeGap 0 (p.rest.length + 1) g p
      let (more, p) ← takeQuoted quote n p
      return (run ++ g.text ++ more, p)

/-! ## Block scalars -/

/-- What becomes of the breaks at the end of a block. -/
inductive Chomping
  /-- None stays. -/
  | strip
  /-- The first one stays. -/
  | clip
  /-- All stay. -/
  | keep
deriving DecidableEq, Repr

/-- The header of a block. -/
structure BlockHeader where
  chomping : Chomping
  /-- The indentation, relative to what encloses the block; zero if the block shows it. -/
  increment : Nat
deriving DecidableEq, Repr

/-- What a sign says about the last line ends. -/
def chomping? : Char → Option Chomping
  | '+' => some .keep
  | '-' => some .strip
  | _ => none

/-- An indentation indicator, and the place after it; zero if there is none. -/
def takeIncrement (p : Place) : Except Error (Nat × Place) :=
  match p.peek with
  | some c =>
    if c = '0' then .error .invalidBlockHeader
    else if c.isDigit then .ok (c.toNat - '0'.toNat, p.skip)
    else .ok (0, p)
  | none => .ok (0, p)

/-- The indicators after the one that opens a block, in either order. -/
def takeIndicators (p : Place) : Except Error (BlockHeader × Place) :=
  match p.peek.bind chomping? with
  | some chomping => do
    let (increment, p) ← takeIncrement p.skip
    return (⟨chomping, increment⟩, p)
  | none => do
    let (increment, p) ← takeIncrement p
    match if increment = 0 then none else p.peek.bind chomping? with
    | some chomping => return (⟨chomping, increment⟩, p.skip)
    | none => return (⟨.clip, increment⟩, p)

/-- The header of a block with the rest of its line. -/
def takeBlockHeader (p : Place) : Except Error (BlockHeader × Place) := do
  let (header, p) ← takeIndicators p
  let p := p.skipGaps.skipComment
  if !p.endsLineAt 0 then throw .invalidBlockHeader
  return (header, p.skipBreak)

/-- Empty lines inside a block: their breaks, the widest of them, and the place of the next line
with text. Indentation left of `indent` is passed over, all of it while `indent` is zero. -/
def takeEmptyLines (indent : Nat) : Nat → Nat → Place → Except Error (List Char × Nat × Place)
  | 0, widest, p => .ok ([], widest, p)
  | n + 1, widest, p =>
    let limit := if indent = 0 then p.rest.length else indent - p.column
    let p := p.skipMany ((p.rest.take limit).takeWhile (· = ' ')).length
    let widest := max widest p.column
    if (indent = 0 || p.column < indent) && p.has '\t' then .error .misplacedTab
    else if p.atBreak then do
      let (breaks, widest, q) ← takeEmptyLines indent n widest p.skipBreak
      return (p.breakText ++ breaks, widest, q)
    else .ok ([], widest, p)

/-- The lines of a block from a place on. `afterBlank` says that the line before started with a
space or a tab, `first` is the break before this line and `further` those after it. -/
def takeBlockLines (literal : Bool) (chomping : Chomping) (indent : Nat) :
    Nat → Bool → List Char → List Char → Place → Except Error (List Char × Place)
  | 0, _, _, _, p => .ok ([], p)
  | n + 1, afterBlank, first, further, p =>
    if p.column ≠ indent || p.atEnd then
      let tail := match chomping with
        | .strip => []
        | .clip => first
        | .keep => first ++ further
      .ok (tail, p)
    else do
      let folds := !literal && first = ['\n'] && !afterBlank && !p.atGap
      let joined := if !folds then first ++ further
        else if further = [] then [' '] else further
      let (line, q) := p.takeRun fun c => !isBreak c
      let (breaks, _, r) ← takeEmptyLines indent (q.rest.length + 1) 0 q.skipBreak
      let (more, r) ← takeBlockLines literal chomping indent n p.atGap q.breakText breaks r
      return (joined ++ line ++ more, r)

/-- A block scalar after the indicator that opens it; `parent` is the indentation of what encloses
it, `-1` at the top. -/
def takeBlock (literal : Bool) (parent : Int) (p : Place) : Except Error (List Char × Place) := do
  let (header, p) ← takeBlockHeader p
  let given := if header.increment = 0 then 0 else parent.toNat + header.increment
  let (breaks, widest, p) ← takeEmptyLines given (p.rest.length + 1) 0 p
  let indent := if given = 0 then max (max widest (parent + 1).toNat) 1 else given
  takeBlockLines literal header.chomping indent (p.rest.length + 1) false [] breaks p

end ChaiBind.Yaml
