import ChaiBind.Header.ClassDeclaration
import ChaiBind.Text.Cursor

/-!
# Signatures

A signature is the first identifier of a line that a parameter list in
parentheses follows; parentheses inside the list may nest one deep. What comes
before the name holds the specifiers and the return type, what comes after the
list may say `const`.
-/

namespace ChaiBind.Header

open Text

/-- A line that reads like the declaration of a function, cut at its name and its parentheses. -/
structure Signature where
  /-- What comes before the name. -/
  before : List Char
  name : List Char
  /-- What stands between the parentheses. -/
  params : List Char
  /-- What comes after the parameter list. -/
  after : List Char
deriving DecidableEq, Repr

/-- The parameter list that has been opened, and what follows its closing parenthesis; `nested`
says that an inner parenthesis is open. -/
def takeParams (nested : Bool) : List Char → Option (List Char × List Char)
  | [] => none
  | c :: cs =>
    if c = '(' then
      if nested then none else (takeParams true cs).map fun (ps, rest) => (c :: ps, rest)
    else if c = ')' then
      if nested then (takeParams false cs).map fun (ps, rest) => (c :: ps, rest) else some ([], cs)
    else (takeParams nested cs).map fun (ps, rest) => (c :: ps, rest)

/-- The signature whose name starts a text; `passed` is what comes before it, backwards. -/
def signatureAt? (passed cs : List Char) : Option Signature := do
  guard (!passed.head?.any isWord)
  let (name, rest) ← takeIdentifier cs
  let rest ← ['('].isPrefixOf? (trimStart rest)
  let (params, after) ← takeParams false rest
  return ⟨passed.reverse, name, params, after⟩

/-- The first signature in a text, given what has been passed, last character first. -/
def signatureFrom? (passed : List Char) : List Char → Option Signature
  | [] => none
  | c :: cs => (signatureAt? passed (c :: cs)).or (signatureFrom? (c :: passed) cs)

/-- The signature of a line. -/
def signature? (line : List Char) : Option Signature := signatureFrom? [] line

/-! ## Before the name -/

/-- Specifiers, which never belong to a return type. -/
def specifiers : List (List Char) :=
  ["virtual".toList, "static".toList, "inline".toList, "explicit".toList, "constexpr".toList,
    "friend".toList, "extern".toList]

/-- Words that open a statement or an expression and no declaration. -/
def statementKeywords : List (List Char) :=
  ["if".toList, "for".toList, "while".toList, "switch".toList, "return".toList, "sizeof".toList,
    "catch".toList, "static_assert".toList, "decltype".toList, "alignas".toList,
    "alignof".toList, "throw".toList, "delete".toList, "new".toList]

/-- A text with a space for each attribute, from the left; `skip` characters at the start belong
to an attribute that has been replaced. -/
def blankAttributesFrom (skip : Nat) : List Char → List Char
  | [] => []
  | c :: cs =>
    match skip with
    | n + 1 => blankAttributesFrom n cs
    | 0 =>
      match afterAttribute? (c :: cs) with
      | some rest => ' ' :: blankAttributesFrom (cs.length - rest.length) cs
      | none => c :: blankAttributesFrom 0 cs

/-- A text with a space for each attribute. -/
def blankAttributes (cs : List Char) : List Char := blankAttributesFrom 0 cs

namespace Signature

/-- The words of the return type. -/
def returnWords (s : Signature) : List (List Char) :=
  (words (blankAttributes s.before)).filter fun w => !specifiers.contains w

/-- The return type, its words separated by single spaces. -/
def returnType (s : Signature) : List Char := [' '].intercalate s.returnWords

/-- Whether a specifier makes it static. -/
def isStatic (s : Signature) : Bool := containsWord "static".toList s.before

/-- Whether it is const. -/
def isConst (s : Signature) : Bool := startsWithWord "const".toList (trimStart s.after)

/-- Whether it is that of a destructor. -/
def isDestructor (s : Signature) : Bool := (trimEnd s.before).getLast? = some '~'

/-- The name or the first word before it opens a statement. -/
def isStatement (s : Signature) : Bool :=
  statementKeywords.contains s.name || s.returnWords.head?.any statementKeywords.contains

end Signature

/-! ## Return types -/

/-- A character that a return type may hold after its first one. -/
def isTypeChar (c : Char) : Bool :=
  isWord c || c = ':' || c = '<' || c = '>' || c = ',' || c = '*' || c = '&' || isBlank c

/-- Nothing, or an identifier start and characters of types. -/
def isReturnType : List Char → Bool
  | [] => true
  | c :: cs => isIdentifierStart c && cs.all isTypeChar

/-- Whether as many angle brackets are closed as are opened. -/
def hasBalancedAngles (cs : List Char) : Bool := cs.count '<' = cs.count '>'

/-- A line that takes a member function away. -/
def isDeleted (line : List Char) : Bool :=
  (cursors line).any fun p =>
    p.rest.head? = some '=' && startsWithWord "delete".toList (trimStart p.rest.tail)

end ChaiBind.Header
