import ChaiBind.Proofs.Header.CodeLines
import ChaiBind.Proofs.Header.MemberGrammar
import ChaiBind.Proofs.Header.MethodTables
import ChaiBind.Proofs.Text.PlainCode

/-!
# Regions in their plain form

A region of blank lines, comment lines and lines that declare member functions (`RegionLine`)
yields the members that it declares and nothing else: no diagnostic, and in the table the names in
the order in which they first come, each with one overload for every line that declares it
(`methodsOf_regionText`).

* `stripComments_regionText`: what is left of the region without its comments.
* `codeLines_regionText`: the lines of the region that have code on them.
* `fst_methodsOf_regionText`, `snd_methodsOf_regionText`: its table and its diagnostics.
-/

namespace ChaiBind.Header

open Text

/-! ## Lines of a region -/

/-- A line of a region. -/
inductive RegionLine
  | blank (spaces : List Char)
  | comment (indent note : List Char)
  | member (m : MemberLine)
deriving DecidableEq, Repr

namespace RegionLine

/-- The line as it is written. -/
def text : RegionLine → List Char
  | blank spaces => spaces
  | comment indent note => indent ++ '/' :: '/' :: note
  | member m => m.text

/-- The line without its comment. -/
def code : RegionLine → List Char
  | blank spaces => spaces
  | comment indent _ => indent
  | member m => m.text

/-- The member that a line declares. -/
def member? : RegionLine → Option MemberLine
  | member m => some m
  | _ => none

/-- The parts are such that they are read as these parts. -/
def WellFormed : RegionLine → Prop
  | blank spaces => (∀ c ∈ spaces, isBlank c) ∧ '\n' ∉ spaces
  | comment indent note => (∀ c ∈ indent, isBlank c) ∧ '\n' ∉ indent ∧ '\n' ∉ note
  | member m => m.WellFormed

instance : DecidablePred WellFormed
  | blank spaces => inferInstanceAs (Decidable ((∀ c ∈ spaces, isBlank c) ∧ '\n' ∉ spaces))
  | comment indent note =>
    inferInstanceAs (Decidable ((∀ c ∈ indent, isBlank c) ∧ '\n' ∉ indent ∧ '\n' ∉ note))
  | member m => inferInstanceAs (Decidable m.WellFormed)

variable {l : RegionLine} (h : l.WellFormed)
include h

theorem newline_notMem_code : '\n' ∉ l.code := by
  cases l with
  | blank spaces => exact h.2
  | comment indent note => exact h.2.1
  | member m => exact h.oneLine

/-- A line leaves its code, and nothing of it is scanned any more behind it. -/
theorem stripComments_append {rest : List Char} (hrest : StartsLine rest) :
    stripComments (l.text ++ rest) = l.code ++ stripComments rest := by
  have hplain : ∀ {cs : List Char}, IsPlainCode false cs →
      stripComments (cs ++ rest) = cs ++ stripComments rest := by
    intro cs hcs
    obtain ⟨afterWord, hstrip⟩ := stripFrom_append_plain hcs fun _ => hrest.not_opens
    exact hstrip.trans (congrArg (cs ++ ·) (stripFrom_of_startsLine hrest afterWord).1)
  cases l with
  | blank spaces => exact hplain (isPlainCode_of_blank h.1 false)
  | comment indent note =>
    obtain ⟨hindent, -, hnote⟩ := h
    have hslash : indent.getLast? = some '/' → ¬ Scan.Opens ('/' :: '/' :: note ++ rest).head? :=
      fun hlast => absurd (List.mem_of_getLast? hlast) (notMem_of_blanks hindent (by decide))
    obtain ⟨afterWord, hstrip⟩ := stripFrom_append_plain (isPlainCode_of_blank hindent false) hslash
    have hopen : stripFrom (.code afterWord) ('/' :: '/' :: note ++ rest) =
        stripFrom .lineComment (note ++ rest) := rfl
    have hskip : stripFrom .lineComment (note ++ rest) = stripComments rest := by
      rw [stripFrom_append, stripPart_lineComment hnote, after_lineComment hnote,
        (stripFrom_of_startsLine hrest false).2, List.nil_append]
    rw [hopen, hskip] at hstrip
    rw [text, List.append_assoc]
    exact hstrip
  | member m => exact hplain ⟨opensNoLiteral_of_notMem h.quotes false, h.comments⟩

end RegionLine

/-! ## The code of a region -/

/-- The text of some lines. -/
def regionText (lines : List RegionLine) : List Char := ['\n'].intercalate (lines.map (·.text))

theorem stripComments_regionText {lines : List RegionLine} (h : ∀ l ∈ lines, l.WellFormed) :
    stripComments (regionText lines) = ['\n'].intercalate (lines.map (·.code)) := by
  induction lines with
  | nil => rfl
  | cons l lines ih =>
    obtain ⟨hl, hlines⟩ := List.forall_mem_cons.1 h
    have ih := ih hlines
    cases lines with
    | nil =>
      have hnil : StartsLine [] := by decide
      have hline := l.stripComments_append hl hnil
      rw [List.append_nil] at hline
      rw [regionText, List.map_singleton, List.intercalate_singleton, hline, List.map_singleton,
        List.intercalate_singleton]
      exact List.append_nil _
    | cons l' lines =>
      have hnewline : ∀ cs, stripComments ('\n' :: cs) = '\n' :: stripComments cs := fun cs => rfl
      have hcode : ['\n'].intercalate ((l :: l' :: lines).map (·.code)) =
          l.code ++ '\n' :: ['\n'].intercalate ((l' :: lines).map (·.code)) :=
        intercalate_cons_char '\n' _ _ _
      rw [regionText, List.map_cons, List.map_cons, intercalate_cons_char,
        l.stripComments_append hl (startsLine_newline _), hnewline, hcode]
      exact congrArg (l.code ++ '\n' :: ·) ih

/-- Lines that are joined by newlines, without the blanks around them. -/
theorem trimmedLines_intercalate {lines : List (List Char)} (h : ∀ line ∈ lines, '\n' ∉ line) :
    trimmedLines (['\n'].intercalate lines) = (lines.map trim).filter (· ≠ []) := by
  induction lines with
  | nil => rfl
  | cons line lines ih =>
    obtain ⟨hline, hlines⟩ := List.forall_mem_cons.1 h
    cases lines with
    | nil =>
      rw [List.intercalate_singleton, trimmedLines]
      by_cases hnil : line = []
      · subst hnil
        rfl
      · rw [inclusiveLines_of_notMem hline hnil]
    | cons line' lines =>
      have htrim : trim (line ++ ['\n']) = trim line := trim_append_of_blank (by decide) line
      have hmap : (line :: line' :: lines).map trim = trim line :: (line' :: lines).map trim := rfl
      rw [intercalate_cons_char, trimmedLines,
        inclusiveLines_append_newline hline, List.map_cons, htrim, List.filter_cons, ← trimmedLines,
        ih hlines, hmap, List.filter_cons]

/-- The members that some lines declare. -/
def memberLines (lines : List RegionLine) : List MemberLine := lines.filterMap (·.member?)

theorem wellFormed_of_mem_memberLines {lines : List RegionLine} (h : ∀ l ∈ lines, l.WellFormed)
    {m : MemberLine} (hm : m ∈ memberLines lines) : m.WellFormed := by
  obtain ⟨l, hl, hmember⟩ := List.mem_filterMap.1 hm
  cases l with
  | member m' =>
    obtain rfl := Option.some.inj hmember
    exact h _ hl
  | blank | comment => cases hmember

/-- The lines of a region that have code on them are those that declare a member. -/
theorem codeLines_regionText {lines : List RegionLine} (h : ∀ l ∈ lines, l.WellFormed) :
    codeLines (regionText lines) = (memberLines lines).map (·.declaration.text) := by
  have hnewline : ∀ line ∈ lines.map (·.code), '\n' ∉ line := by
    intro line hline
    obtain ⟨l, hl, rfl⟩ := List.mem_map.1 hline
    exact l.newline_notMem_code (h l hl)
  rw [codeLines, stripComments_regionText h, trimmedLines_intercalate hnewline]
  clear hnewline
  induction lines with
  | nil => rfl
  | cons l lines ih =>
    obtain ⟨hl, hlines⟩ := List.forall_mem_cons.1 h
    have ih := ih hlines
    have hblank : ∀ {blanks : List Char}, (∀ c ∈ blanks, isBlank c) → trim blanks = [] := by
      intro blanks hblanks
      exact trim_append_of_blank hblanks []
    rw [List.map_cons, List.map_cons, List.filter_cons]
    cases l with
    | blank spaces =>
      rw [RegionLine.code, hblank hl.1]
      exact ih
    | comment indent note =>
      rw [RegionLine.code, hblank hl.1]
      exact ih
    | member m =>
      have hne : m.declaration.text ≠ [] := List.ne_nil_of_mem (a := '(') (by simp [Declaration.text])
      rw [RegionLine.code, m.trim_text hl, if_pos (decide_eq_true hne)]
      exact congrArg _ ih

/-! ## What the region yields -/

/-- The members that some lines declare, with their overloads in a file with some code. -/
def declaredBy (code : List Char) (lines : List RegionLine) : List (String × Overload) :=
  (memberLines lines).map fun m => (String.ofList m.name, m.overload code)

theorem membersFrom_declarations {members : List MemberLine} (h : ∀ m ∈ members, m.WellFormed)
    (className : String) (code : List Char) :
    membersFrom className code 0 (members.map (·.declaration.text)) =
      members.map fun m => (String.ofList m.name, m.overload code) := by
  induction members with
  | nil => rfl
  | cons m members ih =>
    obtain ⟨hm, hmembers⟩ := List.forall_mem_cons.1 h
    rw [List.map_cons, membersFrom, if_pos rfl, m.lineCode_declaration hm, m.readLine_declaration hm,
      m.depthAfter_declaration hm, ih hmembers]
    rfl

theorem fst_methodsOf_regionText {lines : List RegionLine} (h : ∀ l ∈ lines, l.WellFormed)
    (className : String) (offset : Nat) (text : List Char) :
    (methodsOf className (regionText lines) offset text).1 =
      tableOf (declaredBy (countedCode text) lines) := by
  rw [fst_methodsOf, ← membersFrom_trimmed, ← trimmedLines, ← codeLines, codeLines_regionText h,
    membersFrom_declarations fun m hm => wellFormed_of_mem_memberLines h hm, declaredBy]

/-- No line of the region is reported. -/
theorem snd_methodsOf_regionText {lines : List RegionLine} (h : ∀ l ∈ lines, l.WellFormed)
    (className : String) (offset : Nat) (text : List Char) :
    (methodsOf className (regionText lines) offset text).2 = [] := by
  rw [List.eq_nil_iff_forall_not_mem]
  intro diag hdiag
  obtain ⟨place, finding, hmem, -⟩ := mem_findingsOf.1 hdiag
  obtain ⟨pre, p, post, hlines, hreading⟩ := mem_readLines.1 hmem
  have hreported : readingAt className (countedCode text) (depthThrough 0 pre) p =
      .reported finding := (Prod.mk.inj hreading).2.symm
  have hline : p.2 ∈ inclusiveLines (stripComments (regionText lines)) := by
    rw [← map_snd_pairedLines, hlines]
    exact List.mem_map_of_mem (List.mem_append_right pre List.mem_cons_self)
  have hcode : lineCode p.2 ≠ [] := lineCode_ne_nil hreported
  have hmember : trim p.2 ∈ codeLines (regionText lines) := by
    refine List.mem_filter.2 ⟨List.mem_map_of_mem hline, decide_eq_true fun hnil => hcode ?_⟩
    rw [← lineCode_trim, hnil]
    rfl
  rw [codeLines_regionText h] at hmember
  obtain ⟨m, hm, htext⟩ := List.mem_map.1 hmember
  have hwell := wellFormed_of_mem_memberLines h hm
  rw [readingAt, ← lineCode_trim, ← htext, m.lineCode_declaration hwell,
    m.readLine_declaration hwell] at hreported
  split at hreported <;> cases hreported

/-- A region of blank lines, comment lines and plain declarations has no diagnostics, and its table
has the names in the order in which they first come, each with one overload for every line that
declares it, in the order of these lines. -/
theorem methodsOf_regionText {lines : List RegionLine} (h : ∀ l ∈ lines, l.WellFormed)
    (className : String) (offset : Nat) (text : List Char) :
    (methodsOf className (regionText lines) offset text).2 = [] ∧
      (methodsOf className (regionText lines) offset text).1.entries =
        ((declaredBy (countedCode text) lines).map Prod.fst).eraseDups.map fun name =>
          (name, overloadsNamed name (declaredBy (countedCode text) lines)) := by
  refine ⟨snd_methodsOf_regionText h className offset text, ?_⟩
  rw [fst_methodsOf_regionText h, entries_tableOf]

/-- A setter with two overloads, a static factory between them, a comment and a blank line. -/
def volumeLines : List RegionLine :=
  [.comment "  ".toList " \x7b sound".toList,
    .member ⟨"  ".toList, [("virtual".toList, " ".toList)], "const std::map<int,  Sound *> &".toList,
      [], "volume".toList, "int (*f)(int), int n = g(1)".toList, " const".toList, []⟩,
    .member ⟨[], [("static".toList, "  ".toList), ("inline".toList, " ".toList)], "Sound*".toList,
      " ".toList, "make".toList, [], [], "\r".toList⟩,
    .blank "\t".toList,
    .member ⟨[], [], "void".toList, " ".toList, "volume".toList, "void".toList, " = 0".toList, []⟩]

/-- They are read as three overloads of two names. -/
theorem volume_methodsOf :
    let text := regionText volumeLines
    let declared := declaredBy (countedCode text) volumeLines
    (∀ l ∈ volumeLines, l.WellFormed) ∧ (declared.map Prod.fst).eraseDups = ["volume", "make"] ∧
      (methodsOf "Mixer" text 0 text).2 = [] ∧
        (methodsOf "Mixer" text 0 text).1.entries =
          (declared.map Prod.fst).eraseDups.map fun name => (name, overloadsNamed name declared) := by
  intro text declared
  have hwell : ∀ l ∈ volumeLines, l.WellFormed := by decide +kernel
  exact ⟨hwell, by decide +kernel, methodsOf_regionText hwell "Mixer" 0 text⟩

end ChaiBind.Header
