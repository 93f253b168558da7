import ChaiBind.Text.WordChar

/-!
# Identifiers

Two notions live here. In a header an identifier starts with an ASCII letter or
an underscore and goes on as long as there are word characters, so that it may
hold accented letters (`takeIdentifier`). Where a name must be plain, in a
parameter or an include guard, all of it is ASCII (`isAsciiIdentifier`).
-/

namespace ChaiBind.Text

/-- An ASCII letter or an underscore. -/
def isIdentifierStart (c : Char) : Bool := c.isAlpha || c = '_'

/-- An ASCII letter, an ASCII digit or an underscore. -/
def isAsciiIdentifierChar (c : Char) : Bool := c.isAlphanum || c = '_'

/-- The longest identifier at the start of a text, and what follows it. -/
def takeIdentifier : List Char → Option (List Char × List Char)
  | [] => none
  | c :: cs => if isIdentifierStart c then some (c :: cs.takeWhile isWord, cs.dropWhile isWord)
      else none

/-- The identifier and the rest make up the text. -/
theorem append_of_takeIdentifier {cs name rest : List Char}
    (h : takeIdentifier cs = some (name, rest)) : name ++ rest = cs := by
  cases cs with
  | nil => simp [takeIdentifier] at h
  | cons c cs =>
    simp only [takeIdentifier] at h
    split at h
    · cases h
      simp [List.takeWhile_append_dropWhile]
    · cases h

/-- Whether a text is an identifier in ASCII. -/
def isAsciiIdentifier : List Char → Bool
  | [] => false
  | c :: cs => isIdentifierStart c && cs.all isAsciiIdentifierChar

end ChaiBind.Text
