import ChaiBind.Text.Blank

/-!
# Cutting at top level

Parameter lists and enumerator lists are cut at commas that stand neither in a
literal nor inside brackets. One depth counts all four kinds of brackets and may
fall below zero, so that a stray closing bracket does not stop the cutting.
Here a literal goes on over newlines and ends at its quote only.
-/

namespace ChaiBind.Text

/-- What came before a character, as far as cutting there depends on it. -/
inductive Nesting
  /-- Code at a depth; `afterWord` says that an ASCII letter or digit comes right before. -/
  | code (depth : Int) (afterWord : Bool)
  | literal (depth : Int) (quote : Char)
  /-- Inside a literal, right after a backslash. -/
  | escape (depth : Int) (quote : Char)
deriving DecidableEq, Repr

/-- A character that goes one bracket deeper. -/
def isOpening (c : Char) : Bool := c = '<' || c = '(' || c = '[' || c = '{'

/-- A character that comes out of a bracket. -/
def isClosing (c : Char) : Bool := c = '>' || c = ')' || c = ']' || c = '}'

namespace Nesting

/-- Outside brackets and literals. -/
def start : Nesting := .code 0 false

/-- Whether a text with this separator is cut at a character, and what follows it. -/
def step (sep : Char) : Nesting → Char → Bool × Nesting
  | .literal depth quote, c =>
    if c = '\\' then (false, .escape depth quote)
    else if c = quote then (false, .code depth false)
    else (false, .literal depth quote)
  | .escape depth quote, _ => (false, .literal depth quote)
  | .code depth afterWord, c =>
    if c = '"' || (c = '\'' && !afterWord) then (false, .literal depth c)
    else if isOpening c then (false, .code (depth + 1) false)
    else if isClosing c then (false, .code (depth - 1) false)
    else (c = sep && depth ≤ 0, .code depth c.isAlphanum)

end Nesting

/-- The pieces of a text from some nesting on. -/
def splitTopLevelFrom (sep : Char) (s : Nesting) : List Char → List (List Char)
  | [] => [[]]
  | c :: cs =>
    let (cut, s') := s.step sep c
    if cut then [] :: splitTopLevelFrom sep s' cs else consHead c (splitTopLevelFrom sep s' cs)

/-- The pieces of a text between the separators at top level. -/
def splitTopLevel (sep : Char) (cs : List Char) : List (List Char) :=
  splitTopLevelFrom sep .start cs

theorem splitTopLevelFrom_ne_nil (sep : Char) (s : Nesting) (cs : List Char) :
    splitTopLevelFrom sep s cs ≠ [] := by
  cases cs with
  | nil => simp [splitTopLevelFrom]
  | cons c cs =>
    simp only [splitTopLevelFrom]
    split
    · simp
    · cases splitTopLevelFrom sep (s.step sep c).2 cs <;> simp [consHead]

/-- The text before the first `=` at top level: a declaration without its default value, an
enumerator without its initializer. -/
def beforeAssignment (cs : List Char) : List Char := (splitTopLevel '=' cs).headD []

end ChaiBind.Text
