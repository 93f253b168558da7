import ChaiBind.Proofs.Header.Literals
import ChaiBind.Proofs.Text.LineBreaks

/-!
# Lines with code

Of a region, and of its file, the table of methods only depends on the lines that have
code on them, without comments and the blanks around it (`fst_methodsOf_congr`). A comment
at the end of a line leaves these lines as they are (`codeLines_comment`).
-/

namespace ChaiBind.Header

open Text

/-- The lines of some code that are not blank, without the blanks around them. -/
def trimmedLines (code : List Char) : List (List Char) :=
  ((inclusiveLines code).map trim).filter (· ≠ [])

/-- The lines of a text that have code on them. -/
def codeLines (cs : List Char) : List (List Char) := trimmedLines (stripComments cs)

/-! ## What depends on these lines -/

section

variable {className : String} {code : List Char}

theorem lineCode_trim (line : List Char) : lineCode (trim line) = lineCode line := by
  rw [lineCode, trim_trim, lineCode]

theorem membersFrom_trimmed (depth : Nat) (lines : List (List Char)) :
    membersFrom className code depth ((lines.map trim).filter (· ≠ [])) =
      membersFrom className code depth lines := by
  induction lines generalizing depth with
  | nil => rfl
  | cons line lines ih =>
    rw [List.map_cons, List.filter_cons]
    by_cases hnil : trim line = []
    · have hcode : lineCode line = [] := by
        rw [lineCode, hnil]
        rfl
      have hdepth : depthAfter depth [] = depth := rfl
      have hmember : (readLine className code []).member? = none := rfl
      rw [if_neg (by simp [hnil]), ih, membersFrom, hcode, hdepth, hmember]
      simp
    · rw [if_pos (by simp [hnil]), membersFrom, ih, lineCode_trim, membersFrom]

theorem mentionsIn_trimmed {name : List Char} (hname : ∀ c ∈ name, isWord c)
    (lines : List (List Char)) :
    mentionsIn name ((lines.map trim).filter (· ≠ [])) = mentionsIn name lines := by
  induction lines with
  | nil => rfl
  | cons line lines ih =>
    have hcons : ∀ line lines, mentionsIn name (line :: lines) =
        mentions name line + mentionsIn name lines := fun line lines => rfl
    have hline := mentions_trim hname line
    rw [List.map_cons, List.filter_cons]
    by_cases hnil : trim line = []
    · have hzero : mentions name [] = 0 := by
        rw [mentions, occurrences_of_notMem List.not_mem_nil, ite_self]
      rw [hnil, hzero] at hline
      rw [if_neg (by simp [hnil]), ih, hcons, ← hline, Nat.zero_add]
    · rw [if_pos (by simp [hnil]), hcons, ih, hline, hcons]

/-- The table of a region is the same as that of a region with the same lines of code in a file
with the same lines of code. -/
theorem fst_methodsOf_congr {body body' text text' : List Char} {offset offset' : Nat}
    (hbody : codeLines body = codeLines body') (htext : codeLines text = codeLines text') :
    (methodsOf className body offset text).1 = (methodsOf className body' offset' text').1 := by
  have hcount : ∀ name, (∀ c ∈ name, isWord c) →
      occurrences name (countedCode text) = occurrences name (countedCode text') := by
    intro name hname
    rw [occurrences_countedCode hname, occurrences_countedCode hname, ← mentionsIn_trimmed hname,
      ← trimmedLines, ← codeLines, htext, codeLines, trimmedLines, mentionsIn_trimmed hname]
  rw [fst_methodsOf, fst_methodsOf, membersFrom_congr hcount, ← membersFrom_trimmed, ← trimmedLines,
    ← codeLines, hbody, codeLines, trimmedLines, membersFrom_trimmed]

end

/-! ## A blank at the end of a line -/

theorem trimmedLines_blank {start rest : List Char} (hrest : StartsLine rest) :
    trimmedLines (start ++ ' ' :: rest) = trimmedLines (start ++ rest) := by
  have hblank : ∀ line : List Char, trim (line ++ [' ']) = trim line ∧
      trim (line ++ [' ', '\n']) = trim (line ++ ['\n']) := by
    intro line
    rw [trim_append_of_blank (by decide), trim_append_of_blank (by decide),
      trim_append_of_blank (by decide)]
    exact ⟨rfl, rfl⟩
  obtain ⟨lines, line, rfl, hlines, hline⟩ := exists_endsLine_append start
  have hspace : '\n' ∉ line ++ [' '] := by
    rw [List.mem_append, not_or]
    exact ⟨hline, by decide⟩
  rw [trimmedLines, trimmedLines, List.append_assoc, List.append_assoc, inclusiveLines_append hlines,
    inclusiveLines_append hlines, List.map_append, List.map_append, List.filter_append,
    List.filter_append]
  congr 1
  rcases hrest.eq_nil_or with rfl | ⟨rest, rfl⟩
  · rw [inclusiveLines_of_notMem hspace (by simp), List.append_nil]
    by_cases hnil : line = []
    · subst hnil
      rfl
    · rw [inclusiveLines_of_notMem hline hnil, List.map_singleton, (hblank line).1]
      rfl
  · have hsplit : line ++ ' ' :: '\n' :: rest = (line ++ [' ']) ++ '\n' :: rest := by simp
    have hend : line ++ [' '] ++ ['\n'] = line ++ [' ', '\n'] := by simp
    rw [hsplit, inclusiveLines_append_newline hspace, inclusiveLines_append_newline hline,
      List.map_cons, List.map_cons, hend, (hblank line).2]

/-- What is left of a text that is broken behind code, and of the same text with a comment there. -/
theorem stripComments_comment {u c rest : List Char} {afterWord : Bool} (hc : '\n' ∉ c)
    (hrest : StartsLine rest) (hcode : Scan.start.after u none = .code afterWord) :
    stripComments (u ++ rest) = stripPart .start u none ++ stripComments rest ∧
      stripComments (u ++ (lineComment c ++ rest)) =
        stripPart .start u none ++ ' ' :: stripComments rest := by
  have hnone : ¬ Scan.Opens none := by simp [Scan.Opens]
  have hspace : ¬ Scan.Opens (lineComment c ++ rest).head? := by simp [lineComment, Scan.Opens]
  constructor
  · rw [stripComments, stripFrom_append, Scan.after_eq_of_not_opens _ u hrest.not_opens hnone,
      stripPart_eq_of_not_opens _ u hrest.not_opens hnone, hcode, (stripFrom_of_startsLine hrest _).1]
  · rw [stripComments, stripFrom_append, Scan.after_eq_of_not_opens _ u hspace hnone,
      stripPart_eq_of_not_opens _ u hspace hnone, hcode, stripFrom_comment hc hrest]

theorem startsLine_stripComments {cs : List Char} (h : StartsLine cs) :
    StartsLine (stripComments cs) := by
  rcases h.eq_nil_or with rfl | ⟨ds, rfl⟩
  · exact h
  · exact startsLine_newline _

/-- A comment behind code at the end of a line leaves the lines with code as they are. -/
theorem codeLines_comment {u c rest : List Char} {afterWord : Bool} (hc : '\n' ∉ c)
    (hrest : StartsLine rest) (hcode : Scan.start.after u none = .code afterWord) :
    codeLines (u ++ (lineComment c ++ rest)) = codeLines (u ++ rest) := by
  obtain ⟨hplain, hcomment⟩ := stripComments_comment hc hrest hcode
  rw [codeLines, codeLines, hplain, hcomment, trimmedLines_blank (startsLine_stripComments hrest)]

end ChaiBind.Header
