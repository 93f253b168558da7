import ChaiBind.Declaration.Overload
import ChaiBind.Diagnostic.Finding
import ChaiBind.Header.Signature
import ChaiBind.Text.Layer
import ChaiBind.Text.Line
import ChaiBind.Text.Location

/-!
# Members of a region

A region is read line by line, so that a signature has to fit on one line. Each
line that is not inside braces opened before it is a member, a finding, or
neither (`LineReading`): what is clearly no declaration is passed over, and what
looks like one but cannot be read is reported. The members make up the method
table, the findings the diagnostics, both in the order of their lines.

A member counts as overloaded if its name and an opening parenthesis stand more
than once in the code of the whole file, lines with deleted members aside.
-/

namespace ChaiBind.Header

open Text

/-- What a line of a region says. -/
inductive LineReading
  | ignored
  | reported (finding : Finding)
  | member (name : String) (overload : Overload)
deriving DecidableEq, Repr

/-- The code of a file in which the declarations of a name are counted. -/
def countedCode (text : List Char) : List Char :=
  ['\n'].intercalate ((plainLines (stripComments text)).filter fun line => !isDeleted line)

/-- How often a name and an opening parenthesis stand in some code. -/
def occurrences (name code : List Char) : Nat :=
  (cursors code).countP fun p => !p.before.any isWord && (name ++ ['(']).isPrefixOf p.rest

/-- The overload that a signature declares; `code` is the code of its file. -/
def Signature.overload (s : Signature) (code : List Char) : Overload :=
  { returnType := String.ofList s.returnType
    params := Param.ofList s.params
    isOverloaded := 1 < occurrences s.name code
    isStatic := s.isStatic
    isConst := s.isConst }

/-- What a signature says in the region of a class. -/
def readSignature (className : String) (code : List Char) (s : Signature) : LineReading :=
  let name := String.ofList s.name
  if s.isDestructor || s.isStatement || !isReturnType s.returnType ||
      !hasBalancedAngles s.returnType then .ignored
  else if s.returnType = [] && name ≠ className then .reported (.straySignature name className)
  else .member name (s.overload code)

/-- What a line of code outside braces says. -/
def readLine (className : String) (code line : List Char) : LineReading :=
  if line = [] || isDeleted line then .ignored
  else if containsWord "operator".toList line then .reported .operatorNotBound
  else
    match signature? line with
    | some s => readSignature className code s
    | none =>
      if line.contains '(' then .reported (.unreadableSignature (String.ofList line)) else .ignored

/-! ## Lines of a region -/

/-- A line without the blanks around it; a directive of the preprocessor counts as empty. -/
def lineCode (stripped : List Char) : List Char :=
  let line := trim stripped
  if line.head? = some '#' then [] else line

/-- The depth of braces after a line, never below zero. -/
def depthAfter (depth : Nat) (line : List Char) : Nat :=
  depth + line.count '{' - line.count '}'

/-- A region's lines, each with the same line without comments. Stripping keeps newlines, so the
two sides pair up. -/
def pairedLines (body : List Char) : List (List Char × List Char) :=
  (inclusiveLines body).zip (inclusiveLines (stripComments body))

/-- The readings of paired lines with the offsets at which the lines start to say something, given
the offset of the first line and the depth of braces before it. -/
def readLines (className : String) (code : List Char) :
    Nat → Nat → List (List Char × List Char) → List (Nat × LineReading)
  | _, _, [] => []
  | offset, depth, (raw, stripped) :: lines =>
    let line := lineCode stripped
    let reading := if depth = 0 then readLine className code line else .ignored
    (offset + byteLength (leadingBlank raw), reading) ::
      readLines className code (offset + byteLength raw) (depthAfter depth line) lines

/-- The readings of a region's body that starts at an offset of a text. -/
def readBody (className : String) (body : List Char) (offset : Nat) (text : List Char) :
    List (Nat × LineReading) :=
  readLines className (countedCode text) offset 0 (pairedLines body)

/-- The table of the members among some readings. -/
def membersOf (readings : List (Nat × LineReading)) : MethodTable :=
  readings.foldl (fun t r =>
    match r.2 with
    | .member name o => t.push name o
    | _ => t) Table.empty

/-- The diagnostics of the findings among some readings of a text. -/
def findingsOf (text : List Char) (readings : List (Nat × LineReading)) : List Diagnostic :=
  readings.filterMap fun r =>
    match r.2 with
    | .reported f => some (f.reportAt (locate text r.1))
    | _ => none

/-- The methods of a class that a region's body declares, and what cannot be read of it. -/
def methodsOf (className : String) (body : List Char) (offset : Nat) (text : List Char) :
    MethodTable × List Diagnostic :=
  let readings := readBody className body offset text
  (membersOf readings, findingsOf text readings)

end ChaiBind.Header
