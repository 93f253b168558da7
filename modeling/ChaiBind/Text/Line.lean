import ChaiBind.Text.Blank

/-!
# Lines

Three readings of a text as lines. `splitLines` cuts at every newline and keeps
the last piece even if it is empty; `inclusiveLines` leaves each newline at the
end of its line and has no empty last line, so that its lines concatenate to the
text; `plainLines` drops the line ending, which is a newline or a carriage return
and a newline.
-/

namespace ChaiBind.Text

/-- The character that ends a line. -/
def isNewline (c : Char) : Bool := c = '\n'

/-- The pieces between newlines. -/
def splitLines (cs : List Char) : List (List Char) := pieces isNewline cs

/-- The lines of a text with their newlines; only the last one may lack it. -/
def inclusiveLines : List Char → List (List Char)
  | [] => []
  | c :: cs => if isNewline c then [c] :: inclusiveLines cs else consHead c (inclusiveLines cs)

theorem flatten_consHead (c : Char) (ps : List (List Char)) :
    (consHead c ps).flatten = c :: ps.flatten := by
  cases ps <;> rfl

/-- The inclusive lines concatenate to the text. -/
theorem flatten_inclusiveLines (cs : List Char) : (inclusiveLines cs).flatten = cs := by
  induction cs with
  | nil => rfl
  | cons c cs ih =>
    simp only [inclusiveLines]
    split
    · simp [ih]
    · simp [flatten_consHead, ih]

/-- A line without its ending. A carriage return belongs to the ending only before a newline. -/
def dropLineEnding (line : List Char) : List Char :=
  match line.reverse with
  | '\n' :: '\r' :: r => r.reverse
  | '\n' :: r => r.reverse
  | _ => line

/-- The lines of a text without their endings. -/
def plainLines (cs : List Char) : List (List Char) := (inclusiveLines cs).map dropLineEnding

end ChaiBind.Text
