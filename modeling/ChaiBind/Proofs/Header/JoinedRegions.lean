import ChaiBind.Proofs.Header.MethodTables
import ChaiBind.Proofs.Text.KeptLines
import ChaiBind.Proofs.Text.LineStarts

/-!
# Regions put together

Reading a region goes through its lines with a scan, a depth of braces and an offset. Behind
whole lines that leave the scan in code and close their braces, a region is read as if nothing
came before it, except for where it stands: of two such regions, one behind the other, the
tables are joined and the diagnostics follow each other (`methodsOf_append`).

* `after_eq_start`: a newline in code ends what a scan knows.
* `pairedLines_append`: the lines of two regions.
-/

namespace ChaiBind.Header

open Text

theorem membersOf_append (xs ys : List (Nat × LineReading)) :
    membersOf (xs ++ ys) = (membersOf xs).append (membersOf ys) := by
  rw [membersOf_eq_tableOf, List.filterMap_append, tableOf_append, ← membersOf_eq_tableOf,
    ← membersOf_eq_tableOf]

theorem findingsOf_append (text : List Char) (xs ys : List (Nat × LineReading)) :
    findingsOf text (xs ++ ys) = findingsOf text xs ++ findingsOf text ys :=
  List.filterMap_append

/-! ## Lines of both regions -/

/-- Behind a newline in code nothing is left of what came before. -/
theorem after_eq_start {u : List Char} (hu : EndsLine u) {afterWord : Bool}
    (hscan : Scan.start.after u none = .code afterWord) : Scan.start.after u none = .start := by
  rcases hu.eq_nil_or with rfl | ⟨line, rfl⟩
  · rfl
  · refine Scan.after_newline ⟨?_, ?_⟩ <;> rw [hscan] <;> exact id

variable {u v : List Char}

/-- Whole lines have as many lines without comments. -/
theorem length_inclusiveLines_stripComments (hu : EndsLine u) :
    (inclusiveLines (stripComments u)).length = (inclusiveLines u).length := by
  rw [stripComments, stripFrom_eq_stripPart, (hu.stripPart .start none).length_inclusiveLines,
    count_newline_stripPart, hu.length_inclusiveLines]

/-- Without comments the lines of a text are those of its first whole lines and then the others. -/
theorem inclusiveLines_stripComments_append (hu : EndsLine u) (v : List Char) :
    inclusiveLines (stripComments (u ++ v)) =
      inclusiveLines (stripComments u) ++
        inclusiveLines (stripFrom (Scan.start.after u none) v) := by
  rw [stripComments, stripFrom_append, hu.stripPart_eq .start _ none, hu.after_eq .start _ none,
    inclusiveLines_append (hu.stripPart .start none), ← stripFrom_eq_stripPart, ← stripComments]

theorem pairedLines_append (hu : EndsLine u) {afterWord : Bool}
    (hscan : Scan.start.after u none = .code afterWord) :
    pairedLines (u ++ v) = pairedLines u ++ pairedLines v := by
  rw [pairedLines, inclusiveLines_append hu, inclusiveLines_stripComments_append hu,
    after_eq_start hu hscan, List.zip_append (length_inclusiveLines_stripComments hu).symm]
  rfl

/-- The lines that are left of a region make up the whole of it. -/
theorem linesLength_pairedLines (hu : EndsLine u) :
    linesLength (pairedLines u) = byteLength u := by
  have hle : (inclusiveLines u).length ≤ (inclusiveLines (stripComments u)).length :=
    Nat.le_of_eq (length_inclusiveLines_stripComments hu).symm
  rw [linesLength, pairedLines, List.map_fst_zip hle, flatten_inclusiveLines]

/-- Two regions, the first of which consists of whole lines, ends in code and closes its braces,
have the members of both, name by name, and the diagnostics of both. -/
theorem methodsOf_append (className : String) (text : List Char) (offset : Nat) (hu : EndsLine u)
    {afterWord : Bool} (hscan : Scan.start.after u none = .code afterWord)
    (hdepth : depthThrough 0 (pairedLines u) = 0) :
    methodsOf className (u ++ v) offset text =
      ((methodsOf className u offset text).1.append
          (methodsOf className v (offset + byteLength u) text).1,
        (methodsOf className u offset text).2 ++
          (methodsOf className v (offset + byteLength u) text).2) := by
  have hreadings : readBody className (u ++ v) offset text =
      readBody className u offset text ++ readBody className v (offset + byteLength u) text := by
    rw [readBody, pairedLines_append hu hscan, readLines_append, hdepth,
      linesLength_pairedLines hu]
    rfl
  rw [methodsOf, hreadings, membersOf_append, findingsOf_append]
  rfl

/-- A region with a body in braces, an overload of it behind, and a comment that is never closed. -/
theorem methodsOf_append_unclosed :
    let u := "int f(); // one\nvoid g() \x7b\n/* \x7d */ \x7d\n".toList
    let v := "int f(int n);\noperator bool();\n\x7d int h(); /* lost\nint k();".toList
    EndsLine u ∧ Scan.start.after u none = .code false ∧ depthThrough 0 (pairedLines u) = 0 ∧
      methodsOf "Foo" (u ++ v) 0 (u ++ v) =
        ((methodsOf "Foo" u 0 (u ++ v)).1.append (methodsOf "Foo" v (0 + byteLength u) (u ++ v)).1,
          (methodsOf "Foo" u 0 (u ++ v)).2 ++ (methodsOf "Foo" v (0 + byteLength u) (u ++ v)).2) := by
  intro u v
  have hu : EndsLine u := by decide
  have hscan : Scan.start.after u none = .code false := by decide
  have hdepth : depthThrough 0 (pairedLines u) = 0 := by decide
  exact ⟨hu, hscan, hdepth, methodsOf_append "Foo" (u ++ v) 0 hu hscan hdepth⟩

end ChaiBind.Header
