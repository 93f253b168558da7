import ChaiBind.Text.Cursor

/-!
# Locations

A place in a text as people read it: its line and its column, both counted from
one, beside its offset in bytes. Columns count characters. `locate` reads a
location off a text; an offset inside a character moves back to that character's
start, and one past the end moves back to the end.

A location counts without a bound. What is stored of it and shown are words of 32
bits (`Location.stored`), which `locationAt` counts at once.
-/

namespace ChaiBind.Text

/-- A place in a text. -/
structure Location where
  /-- The bytes in front of it. -/
  offset : Nat
  line : Nat
  column : Nat
deriving DecidableEq, Repr

/-- A location in words of 32 bits. -/
structure StoredLocation where
  offset : Nat
  line : UInt32
  column : UInt32
deriving DecidableEq, Repr

/-- The line and the column with a colon between them. -/
def StoredLocation.display (l : StoredLocation) : String := s!"{l.line}:{l.column}"

namespace Location

/-- The start of every text. -/
def start : Location := ⟨0, 1, 1⟩

/-- The location after a character at this one. -/
def advance (l : Location) (c : Char) : Location :=
  if c = '\n' then ⟨l.offset + c.utf8Size, l.line + 1, 1⟩
  else ⟨l.offset + c.utf8Size, l.line, l.column + 1⟩

/-- The words that hold a location. Past the greatest word they start again from zero, unless sums are
checked, which then stops the program. -/
def stored (l : Location) : StoredLocation := ⟨l.offset, .ofNat l.line, .ofNat l.column⟩

@[simp] theorem offset_advance (l : Location) (c : Char) :
    (l.advance c).offset = l.offset + c.utf8Size := by
  unfold advance
  split <;> rfl

end Location

/-- The last location not past an offset, going forward from a location. -/
def locateFrom (l : Location) (offset : Nat) : List Char → Location
  | [] => l
  | c :: cs => if l.offset + c.utf8Size ≤ offset then locateFrom (l.advance c) offset cs else l

/-- The location of an offset in a text. -/
def locate (cs : List Char) (offset : Nat) : Location := locateFrom .start offset cs

theorem offset_locateFrom_le {l : Location} {offset : Nat} (h : l.offset ≤ offset)
    (cs : List Char) : (locateFrom l offset cs).offset ≤ offset := by
  induction cs generalizing l with
  | nil => exact h
  | cons c cs ih =>
    simp only [locateFrom]
    split
    · exact ih (by simpa using ‹_›)
    · exact h

/-- A location never lies past the offset that was asked for. -/
theorem offset_locate_le (cs : List Char) (offset : Nat) : (locate cs offset).offset ≤ offset :=
  offset_locateFrom_le (Nat.zero_le _) cs

/-- The text from a byte offset on. -/
def dropBytes : Nat → List Char → List Char
  | 0, cs => cs
  | _ + 1, [] => []
  | n + 1, c :: cs => dropBytes (n + 1 - c.utf8Size) cs

/-- The longest start of a text that has no more than some bytes. -/
def takeBytes : Nat → List Char → List Char
  | _, [] => []
  | n, c :: cs => if c.utf8Size ≤ n then c :: takeBytes (n - c.utf8Size) cs else []

/-- The text between two byte offsets. -/
def slice (cs : List Char) (start stop : Nat) : List Char :=
  takeBytes (stop - start) (dropBytes start cs)

/-- The location of an offset, counted in the text in front of it: its newlines, and the characters
behind the last one. -/
def locationAt (cs : List Char) (offset : Nat) : StoredLocation :=
  let front := takeBytes offset cs
  let line := front.reverse.takeWhile (· ≠ '\n')
  ⟨byteLength front, .ofNat (front.count '\n') + 1, .ofNat line.length + 1⟩

theorem takeBytes_isPrefix (n : Nat) (cs : List Char) : takeBytes n cs <+: cs := by
  induction cs generalizing n with
  | nil => exact List.prefix_refl _
  | cons c cs ih =>
    simp only [takeBytes]
    split
    · exact (List.prefix_cons_inj c).2 (ih _)
    · exact List.nil_prefix

end ChaiBind.Text
