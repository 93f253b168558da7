import ChaiBind.Text.Blank

/-!
# Code, literals and comments

Every character of a header belongs to one of three layers. `Scan` is what has
to be known before a character to decide its layer, given the character and the
one after it; `layers` labels a whole text. Without comments a text is its code
and literals and the newlines of its block comments (`stripComments`), so that
lines keep their numbers, and trivia is what `skipTrivia` passes over: blanks and
comments.

* A literal ends at its quote or, unless a backslash is before it, at a newline.
* A single quote right after an ASCII letter or digit separates digits.
* A line comment ends before its newline, a block comment with `*/` or never.
-/

namespace ChaiBind.Text

/-- What a character of a text belongs to. -/
inductive Layer
  | code
  | literal
  | comment
deriving DecidableEq, Repr

/-- What came before a character, as far as its layer depends on it. -/
inductive Scan
  /-- Code; `afterWord` says that an ASCII letter or digit comes right before. -/
  | code (afterWord : Bool)
  | literal (quote : Char)
  /-- Inside a literal, right after a backslash. -/
  | escape (quote : Char)
  | lineComment
  /-- Between the slash and the star that open a block comment. -/
  | blockOpening
  /-- Inside a block comment; `star` says that a star comes right before. -/
  | blockComment (star : Bool)
deriving DecidableEq, Repr

namespace Scan

/-- At the start of a text. -/
def start : Scan := .code false

/-- A single quote opens a literal here, and does not separate digits. -/
def opensLiteral (afterWord : Bool) (c : Char) : Bool := c = '"' || (c = '\'' && !afterWord)

/-- The layer of a character in code, and what follows it. -/
def stepCode (afterWord : Bool) (c : Char) (next : Option Char) : Layer × Scan :=
  if opensLiteral afterWord c then (.literal, .literal c)
  else if c = '/' && next = some '/' then (.comment, .lineComment)
  else if c = '/' && next = some '*' then (.comment, .blockOpening)
  else (.code, .code c.isAlphanum)

/-- The layer of a character, given the character after it, and what follows it. -/
def step : Scan → Char → Option Char → Layer × Scan
  | .code afterWord, c, next => stepCode afterWord c next
  | .literal quote, c, _ =>
    if c = '\\' then (.literal, .escape quote)
    else if c = '\n' then (.code, .code false)
    else if c = quote then (.literal, .code false)
    else (.literal, .literal quote)
  | .escape quote, _, _ => (.literal, .literal quote)
  | .lineComment, c, _ => if c = '\n' then (.code, .code false) else (.comment, .lineComment)
  | .blockOpening, _, _ => (.comment, .blockComment false)
  | .blockComment star, c, _ =>
    if star && c = '/' then (.comment, .code false) else (.comment, .blockComment (c = '*'))

/-- What has been scanned after some text that another character may follow. -/
def after (s : Scan) : List Char → Option Char → Scan
  | [], _ => s
  | c :: cs, next => (s.step c (cs.head?.or next)).2.after cs next

end Scan

/-- The characters of a text with their layers. -/
def layersFrom (s : Scan) : List Char → List (Layer × Char)
  | [] => []
  | c :: cs => ((s.step c cs.head?).1, c) :: layersFrom (s.step c cs.head?).2 cs

/-- The characters of a text with their layers. -/
def layers (cs : List Char) : List (Layer × Char) := layersFrom .start cs

/-- Labelling adds and drops no character. -/
theorem map_snd_layersFrom (s : Scan) (cs : List Char) : (layersFrom s cs).map Prod.snd = cs := by
  induction cs generalizing s with
  | nil => rfl
  | cons c cs ih => simp [layersFrom, ih]

/-! ## Without comments -/

/-- A character stays unless it is comment text other than a newline. -/
def survives (x : Layer × Char) : Bool := x.1 ≠ .comment || x.2 = '\n'

/-- What survives of a text, from a state on. -/
def stripFrom (s : Scan) (cs : List Char) : List Char :=
  ((layersFrom s cs).filter survives).map Prod.snd

/-- The text without its comments, line by line. -/
def stripComments (cs : List Char) : List Char := stripFrom .start cs

/-- Stripping only leaves characters out. -/
theorem stripComments_sublist (cs : List Char) : (stripComments cs).Sublist cs := by
  have h := (List.filter_sublist (p := survives) (l := layers cs)).map Prod.snd
  rwa [layers, map_snd_layersFrom] at h

/-! ## Trivia -/

/-- A text without the blanks and comments at its start, from a state on. -/
def skipTriviaFrom (s : Scan) : List Char → List Char
  | [] => []
  | c :: cs =>
    let (layer, s') := s.step c cs.head?
    if layer = .comment || isBlank c then skipTriviaFrom s' cs else c :: cs

/-- What is left of a text after the blanks and comments at its start. -/
def skipTrivia (cs : List Char) : List Char := skipTriviaFrom .start cs

theorem skipTriviaFrom_isSuffix (s : Scan) (cs : List Char) : skipTriviaFrom s cs <:+ cs := by
  induction cs generalizing s with
  | nil => exact List.suffix_refl _
  | cons c cs ih =>
    simp only [skipTriviaFrom]
    split
    · exact (ih _).trans (List.suffix_cons c cs)
    · exact List.suffix_refl _

end ChaiBind.Text
