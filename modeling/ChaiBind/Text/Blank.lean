/-!
# Blank characters

The characters that separate words: those with the Unicode property
`White_Space`, in ASCII and beyond. Trimming and cutting into words are stated
over this class; spaces and tabs alone are `isSpaceOrTab`, which is all that a
marker or a declaration line may hold between its words.
-/

namespace ChaiBind.Text

/-- The 25 characters with the property `White_Space`. -/
def isBlank (c : Char) : Bool :=
  let n := c.toNat
  n = 0x20 || (0x09 ≤ n && n ≤ 0x0D) || n = 0x85 || n = 0xA0 || n = 0x1680 ||
    (0x2000 ≤ n && n ≤ 0x200A) || n = 0x2028 || n = 0x2029 || n = 0x202F || n = 0x205F ||
    n = 0x3000

/-- A blank that a line may hold between its words. -/
def isSpaceOrTab (c : Char) : Bool := c = ' ' || c = '\t'

theorem isBlank_of_isSpaceOrTab {c : Char} (h : isSpaceOrTab c) : isBlank c := by
  simp only [isSpaceOrTab, Bool.or_eq_true, decide_eq_true_eq] at h
  rcases h with rfl | rfl <;> decide

/-! ## Trimming -/

/-- A text without the blanks at its start. -/
def trimStart (cs : List Char) : List Char := cs.dropWhile isBlank

/-- A text without the blanks at its end. -/
def trimEnd (cs : List Char) : List Char := (cs.reverse.dropWhile isBlank).reverse

/-- A text without the blanks at both ends. -/
def trim (cs : List Char) : List Char := trimEnd (trimStart cs)

/-- The blank characters at the start of a text. -/
def leadingBlank (cs : List Char) : List Char := cs.takeWhile isBlank

theorem leadingBlank_append_trimStart (cs : List Char) : leadingBlank cs ++ trimStart cs = cs :=
  List.takeWhile_append_dropWhile

/-- Whether nothing but blanks is there. -/
def allBlank (cs : List Char) : Bool := cs.all isBlank

/-- A text without the spaces and tabs at its start. -/
def dropSpaces (cs : List Char) : List Char := cs.dropWhile isSpaceOrTab

/-! ## Pieces between separators -/

/-- Puts a character in front of the first piece. -/
def consHead (c : Char) : List (List Char) → List (List Char)
  | [] => [[c]]
  | p :: ps => (c :: p) :: ps

/-- The pieces of a text between the characters that `sep` accepts, of which there is always one
more than there are separators. -/
def pieces (sep : Char → Bool) : List Char → List (List Char)
  | [] => [[]]
  | c :: cs => if sep c then [] :: pieces sep cs else consHead c (pieces sep cs)

theorem length_consHead_pieces (c : Char) (sep : Char → Bool) (cs : List Char) :
    (consHead c (pieces sep cs)).length = (pieces sep cs).length := by
  cases cs with
  | nil => rfl
  | cons d ds =>
    simp only [pieces]
    split
    · rfl
    · cases pieces sep ds <;> rfl

theorem length_pieces (sep : Char → Bool) (cs : List Char) :
    (pieces sep cs).length = cs.countP sep + 1 := by
  induction cs with
  | nil => rfl
  | cons c cs ih =>
    simp only [pieces, List.countP_cons]
    split
    · simp [ih]
    · simp [length_consHead_pieces, ih]

/-- The words of a text: its pieces between blanks, without the empty ones. -/
def words (cs : List Char) : List (List Char) := (pieces isBlank cs).filter (· ≠ [])

end ChaiBind.Text
