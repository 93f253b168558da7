import ChaiBind.Proofs.Header.PassedOverLines
import ChaiBind.Proofs.Text.PlainCode

/-!
# Deleted members

A line with a deleted member is read in two places: in the region, where it says nothing, and in the
code of the file, where it counts for no name. So the whole line can be taken out of the region, and
with it out of the file (`methodsOf_deletion`): also the other members of the name stay overloaded or
not, as they were.
-/

namespace ChaiBind.Header

open Text

/-- A whole line, without comments, literals and braces, of a deleted member. -/
structure IsDeletion (line : List Char) : Prop where
  whole : ∃ start, '\n' ∉ start ∧ line = start ++ ['\n']
  comments : ¬ ['/', '/'] <:+: line ∧ ¬ ['/', '*'] <:+: line
  quotes : '"' ∉ line ∧ '\'' ∉ line
  braces : '{' ∉ line ∧ '}' ∉ line
  deletes : isDeleted line

namespace IsDeletion

variable {line : List Char} (h : IsDeletion line)
include h

theorem endsLine : EndsLine line := by
  obtain ⟨start, -, rfl⟩ := h.whole
  exact endsLine_append_newline start

theorem after_eq_code_and_stripPart :
    (∃ afterWord, Scan.start.after line none = .code afterWord) ∧
      stripPart .start line none = line :=
  after_plain ⟨opensNoLiteral_of_notMem h.quotes false, h.comments⟩ fun _ => by simp [Scan.Opens]

theorem stopsInCode : StopsInCode line where
  whole := h.endsLine
  scan := by
    obtain ⟨⟨afterWord, hafter⟩, -⟩ := h.after_eq_code_and_stripPart
    exact after_eq_start h.endsLine hafter

/-- The line is the only one that is left of it without comments. -/
theorem inclusiveLines_stripComments : inclusiveLines (stripComments line) = [line] := by
  rw [stripComments, stripFrom_eq_stripPart, h.after_eq_code_and_stripPart.2]
  obtain ⟨start, hstart, rfl⟩ := h.whole
  exact inclusiveLines_append_newline hstart []

/-- The line is passed over, whether it is a directive of the preprocessor or not. -/
theorem readLine_lineCode (className : String) (code : List Char) :
    readLine className code (lineCode line) = .ignored := by
  obtain ⟨before, after, hbefore, hafter, hline⟩ := exists_append_trim line
  have htrim : isDeleted (trim line) := by
    have hdeletes := h.deletes
    rwa [hline, isDeleted_append_blank hafter, isDeleted_blank_append hbefore] at hdeletes
  rw [lineCode]
  split
  · rfl
  · rw [readLine, htrim, Bool.or_true]
    rfl

theorem depthAfter_lineCode (depth : Nat) : depthAfter depth (lineCode line) = depth := by
  have hbraces : '{' ∉ lineCode line ∧ '}' ∉ lineCode line := by
    obtain ⟨before, after, -, -, hline⟩ := exists_append_trim line
    have htrim : ∀ c ∈ trim line, c ∈ line := fun c hc => by
      rw [hline]
      exact List.mem_append_left _ (List.mem_append_right _ hc)
    rw [lineCode]
    split
    · exact ⟨List.not_mem_nil, List.not_mem_nil⟩
    · exact ⟨fun hc => h.braces.1 (htrim _ hc), fun hc => h.braces.2 (htrim _ hc)⟩
  rw [depthAfter, List.count_eq_zero_of_not_mem hbraces.1, List.count_eq_zero_of_not_mem hbraces.2]
  rfl

/-- The line counts for no name. -/
theorem mentionsIn_line (name : List Char) : mentionsIn name [line] = 0 := by
  have hline : mentions name line = 0 := by rw [mentions, if_pos h.deletes]
  rw [mentionsIn, sumLines, hline]
  rfl

/-- Without the line a file mentions each name as often. -/
theorem occurrences_countedCode_deletion {above : List Char} (habove : StopsInCode above)
    (below : List Char) {name : List Char} (hname : ∀ c ∈ name, isWord c) :
    occurrences name (countedCode (above ++ line ++ below)) =
      occurrences name (countedCode (above ++ below)) := by
  rw [occurrences_countedCode hname, occurrences_countedCode hname, List.append_assoc,
    habove.inclusiveLines_append, habove.inclusiveLines_append, h.stopsInCode.inclusiveLines_append,
    h.inclusiveLines_stripComments, mentionsIn_append, mentionsIn_append, mentionsIn_append,
    h.mentionsIn_line, Nat.zero_add]

end IsDeletion

/-- The line of a deleted member can be taken out of a region and its file. -/
theorem methodsOf_deletion {before above line : List Char} (habove : StopsInCode above)
    (hfile : StopsInCode (before ++ above)) (h : IsDeletion line) (className : String)
    (below after : List Char) :
    let whole := methodsOf className (above ++ line ++ below) (byteLength before)
      (before ++ (above ++ line ++ below) ++ after)
    let rest := methodsOf className (above ++ below) (byteLength before)
      (before ++ (above ++ below) ++ after)
    whole.1 = rest.1 ∧ whole.2.map Diagnostic.unplaced = rest.2.map Diagnostic.unplaced := by
  refine methodsOf_passedOver habove h.stopsInCode (fun r hr => ?_) ?_ (fun name hname => ?_) below _ _
  · rw [h.inclusiveLines_stripComments, readingsFrom, readingsFrom, List.mem_singleton] at hr
    rw [hr, h.readLine_lineCode, ite_self]
  · rw [depthBehind_eq, habove.inclusiveLines_append, h.inclusiveLines_stripComments,
      depthFrom_append, ← depthBehind_eq]
    exact h.depthAfter_lineCode _
  · have hcount := h.occurrences_countedCode_deletion hfile (below ++ after) hname
    simpa only [List.append_assoc] using hcount

/-- A deleted constructor does not make the other one overloaded. -/
theorem copy_deleted :
    let before := "struct Foo : Base \x7b // it's a copy\n".toList
    let above := "Foo(int n);\n".toList
    let line := "  Foo(const Foo&) =delete;\n".toList
    let below := "int sum(int n);\nint sum();\noperator bool();\n".toList
    let whole := methodsOf "Foo" (above ++ line ++ below) (byteLength before)
      (before ++ (above ++ line ++ below) ++ [])
    let rest := methodsOf "Foo" (above ++ below) (byteLength before)
      (before ++ (above ++ below) ++ [])
    StopsInCode above ∧ StopsInCode (before ++ above) ∧ IsDeletion line ∧
      whole.1.entries.map (fun e => (e.1, e.2.map (·.isOverloaded))) =
        [("Foo", [false]), ("sum", [true, true])] ∧
      whole.1 = rest.1 ∧
      whole.2.map Diagnostic.unplaced = rest.2.map Diagnostic.unplaced := by
  intro before above line below whole rest
  have habove : StopsInCode above := ⟨by decide, rfl⟩
  have hfile : StopsInCode (before ++ above) := ⟨by decide, rfl⟩
  have hline : IsDeletion line :=
    { whole := ⟨"  Foo(const Foo&) =delete;".toList, by decide, rfl⟩
      comments := by decide +kernel
      quotes := by decide
      braces := by decide
      deletes := by decide }
  exact ⟨habove, hfile, hline, by decide +kernel,
    methodsOf_deletion habove hfile hline "Foo" below []⟩

end ChaiBind.Header
