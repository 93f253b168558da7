import ChaiBind.Text.WordChar

/-!
# Positions in a text

A position is the character before it, its offset in bytes of UTF-8 and the text
after it. Whatever is searched for in a header is a property of a position, and
a search is a filter over `cursors`, which lists all positions from the start of
the text to its end.

A word stands at a position if nothing that belongs to a word comes right before
or right after it. The words looked for start and end in word characters.
-/

namespace ChaiBind.Text

/-- The length of a text in bytes of UTF-8. -/
def byteLength : List Char → Nat
  | [] => 0
  | c :: cs => c.utf8Size + byteLength cs

@[simp] theorem byteLength_nil : byteLength [] = 0 := rfl

@[simp] theorem byteLength_cons (c : Char) (cs : List Char) :
    byteLength (c :: cs) = c.utf8Size + byteLength cs := rfl

@[simp] theorem byteLength_append (cs ds : List Char) :
    byteLength (cs ++ ds) = byteLength cs + byteLength ds := by
  induction cs with
  | nil => simp
  | cons c cs ih => simp [ih, Nat.add_assoc]

/-- A position in a text. -/
structure Cursor where
  /-- The character before the position, `none` at the start. -/
  before : Option Char
  offset : Nat
  rest : List Char
deriving DecidableEq, Repr

/-- All positions from one on, given what is before it. -/
def cursorsFrom (before : Option Char) (offset : Nat) : List Char → List Cursor
  | [] => [⟨before, offset, []⟩]
  | c :: cs => ⟨before, offset, c :: cs⟩ :: cursorsFrom (some c) (offset + c.utf8Size) cs

/-- All positions of a text. -/
def cursors (cs : List Char) : List Cursor := cursorsFrom none 0 cs

/-! ## Words -/

/-- A text starts with a word, and what follows the word. -/
def afterWord? (word cs : List Char) : Option (List Char) :=
  (word.isPrefixOf? cs).filter fun rest => !rest.head?.any isWord

/-- Whether a text starts with a word. -/
def startsWithWord (word cs : List Char) : Bool := (afterWord? word cs).isSome

/-- A word starts at a position. -/
def Cursor.hasWord (p : Cursor) (word : List Char) : Bool :=
  !p.before.any isWord && startsWithWord word p.rest

/-- Whether a word stands somewhere in a text. -/
def containsWord (word cs : List Char) : Bool := (cursors cs).any (·.hasWord word)

end ChaiBind.Text
