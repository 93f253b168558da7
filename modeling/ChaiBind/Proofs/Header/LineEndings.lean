import ChaiBind.Proofs.Header.CodeLines
import ChaiBind.Proofs.Header.EndingEnums

/-!
# Headers with other line endings

A header may end its lines with newlines or with carriage returns and newlines. Either way
the same is recognized of it (`recognize_withReturns`), the text of the class body, the line
endings inside enumerators and the offsets of diagnostics apart: those have other line endings
as well, and lines and columns do not count them. A backslash at the end of a line is left out,
since it escapes the carriage return in place of the newline.
-/

namespace ChaiBind

open Text

namespace Header

/-! ## Members -/

theorem findingsOf_cons (text : List Char) (offset : Nat) (reading : LineReading)
    (rs : List (Nat × LineReading)) :
    findingsOf text ((offset, reading) :: rs) =
      (reading.finding?.map fun f => f.reportAt (locate text offset)).toList ++
        findingsOf text rs := by
  rw [findingsOf, List.filterMap_cons]
  cases reading <;> rfl

/-- What is wrong with a line does not depend on the code of its file. -/
theorem finding?_readLine (className : String) (code code' line : List Char) :
    (readLine className code line).finding? = (readLine className code' line).finding? := by
  rw [readLine, readLine]
  split
  · rfl
  · split
    · rfl
    · split
      · rw [readSignature, readSignature]
        split
        · rfl
        · split <;> rfl
      · rfl

variable {className : String} {code code' : List Char}

/-- Lines that are the same without the blanks around them have the same findings, each at its line
and column. -/
theorem findingsOf_readLines_withReturns {text u v : List Char}
    {lines kept kept' : List (List Char)} (hkept : kept'.map trim = kept.map trim)
    (htext : text = u ++ (lines.flatten ++ v)) (depth : Nat) :
    (findingsOf (withReturns text) (readLines className code' (byteLength (withReturns u)) depth
        ((lines.map withReturns).zip kept'))).map Diagnostic.apartFromOffset =
      (findingsOf text (readLines className code (byteLength u) depth
        (lines.zip kept))).map Diagnostic.apartFromOffset := by
  induction lines generalizing u kept kept' depth with
  | nil => rfl
  | cons raw lines ih =>
    cases kept with
    | nil =>
      obtain rfl : kept' = [] := List.map_eq_nil_iff.1 hkept
      rfl
    | cons stripped kept =>
      obtain ⟨stripped', kept', rfl, htrim, hkept⟩ := List.map_eq_cons_iff.1 hkept
      have hcode : lineCode stripped' = lineCode stripped := by
        rw [← lineCode_trim, htrim, lineCode_trim]
      have hnext : text = (u ++ raw) ++ (lines.flatten ++ v) := by
        rw [htext, List.flatten_cons, List.append_assoc, List.append_assoc]
      have hrest := ih hkept hnext (depthAfter depth (lineCode stripped))
      have hplace : (locate (withReturns text)
            (byteLength (withReturns u) + byteLength (withReturns (leadingBlank raw)))).place =
          (locate text (byteLength u + byteLength (leadingBlank raw))).place := by
        have hsplit : text =
            (u ++ leadingBlank raw) ++ (trimStart raw ++ (lines.flatten ++ v)) := by
          rw [hnext, List.append_assoc u (leadingBlank raw), ← List.append_assoc (leadingBlank raw),
            leadingBlank_append_trimStart, List.append_assoc]
        have hmoved := place_locate_withReturns (u ++ leadingBlank raw)
          (trimStart raw ++ (lines.flatten ++ v))
        rwa [moved_byteLength, ← hsplit, withReturns_append, byteLength_append,
          byteLength_append] at hmoved
      have hfinding : (readingAt className code' depth (withReturns raw, stripped')).finding? =
          (readingAt className code depth (raw, stripped)).finding? := by
        rw [readingAt, readingAt, hcode]
        split
        · exact finding?_readLine className code' code _
        · rfl
      rw [withReturns_append, byteLength_append, byteLength_append] at hrest
      rw [List.map_cons, List.zip_cons_cons, List.zip_cons_cons, readLines_cons, readLines_cons,
        findingsOf_cons, findingsOf_cons, List.map_append, List.map_append, hcode, hrest,
        leadingBlank_withReturns, hfinding]
      congr 1
      cases (readingAt className code depth (raw, stripped)).finding? with
      | none => rfl
      | some f => exact congrArg (fun d => [d]) (f.apartFromOffset_reportAt hplace)

section

variable {cs : List Char} (hreturn : '\r' ∉ cs) (hsplice : ¬ ['\\', '\n'] <:+: cs)
include hreturn hsplice

theorem codeLines_withReturns : codeLines (withReturns cs) = codeLines cs := by
  rw [codeLines, codeLines, trimmedLines, trimmedLines,
    (hasReturns_stripComments hreturn hsplice).map_trim_inclusiveLines]

/-- The methods of a region and what is wrong with its members. -/
theorem methodsOf_withReturns {r : Region} (hr : (regionOf cs).1 = some r) :
    (methodsOf r.className (withReturns r.body) (moved cs r.bodyOffset) (withReturns cs)).1 =
        (methodsOf r.className r.body r.bodyOffset cs).1 ∧
      (methodsOf r.className (withReturns r.body) (moved cs r.bodyOffset)
          (withReturns cs)).2.map Diagnostic.apartFromOffset =
        (methodsOf r.className r.body r.bodyOffset cs).2.map Diagnostic.apartFromOffset := by
  obtain ⟨before, after, hcs, hoffset⟩ := exists_region_split hr
  have hbody : r.body <:+: cs := ⟨before, after, hcs.symm⟩
  have hbodyReturn : '\r' ∉ r.body := fun h => hreturn (hbody.subset h)
  have hbodySplice : ¬ ['\\', '\n'] <:+: r.body := fun h => hsplice (h.trans hbody)
  have hkept := (hasReturns_stripComments hbodyReturn hbodySplice).map_trim_inclusiveLines
  have htext : cs = before ++ ((inclusiveLines r.body).flatten ++ after) := by
    rw [flatten_inclusiveLines, ← List.append_assoc, ← hcs]
  have hmoved : moved cs r.bodyOffset = byteLength (withReturns before) := by
    rw [← hoffset, htext, moved_byteLength]
  refine ⟨fst_methodsOf_congr (codeLines_withReturns hbodyReturn hbodySplice)
    (codeLines_withReturns hreturn hsplice), ?_⟩
  rw [methodsOf, methodsOf, readBody, readBody, pairedLines, pairedLines,
    inclusiveLines_withReturns, hmoved, ← hoffset]
  exact findingsOf_readLines_withReturns hkept htext 0

end

end Header

open Header

/-! ## Headers -/

namespace SourceUnit

/-- The header with a carriage return before each newline. -/
def withReturns (unit : SourceUnit) : SourceUnit :=
  { unit with text := String.ofList (Text.withReturns unit.text.toList) }

end SourceUnit

/-- The class with a carriage return before each newline of its body. -/
def ScriptClass.withReturns (c : ScriptClass) : ScriptClass :=
  { c with body := String.ofList (Text.withReturns c.body.toList) }

theorem class?_recognize (unit : SourceUnit) :
    (recognize unit).class? = (regionOf unit.text.toList).1.map fun r =>
      (regionClass unit (namespaceOf unit.text.toList) r).1 := by
  simp only [recognize, Option.map_map]
  rfl

theorem toList_text_withReturns (unit : SourceUnit) :
    unit.withReturns.text.toList = Text.withReturns unit.text.toList := String.toList_ofList

section

variable (unit : SourceUnit) (hreturn : '\r' ∉ unit.text.toList)
  (hsplice : ¬ ['\\', '\n'] <:+: unit.text.toList)

include hreturn hsplice

theorem class?_withReturns :
    (recognize unit.withReturns).class? = (recognize unit).class?.map ScriptClass.withReturns := by
  rw [class?_recognize, class?_recognize, toList_text_withReturns, fst_regionOf_withReturns,
    namespaceOf_withReturns, Option.map_map, Option.map_map]
  refine Option.map_congr fun r hr => ?_
  simp only [Function.comp_apply, regionClass, Region.move, toList_text_withReturns,
    basesOf_withReturns, ScriptClass.withReturns, String.toList_ofList,
    (methodsOf_withReturns hreturn hsplice hr).1]
  rfl

theorem enums_withReturns :
    (recognize unit.withReturns).enums.map Enumeration.withLineFeeds = (recognize unit).enums := by
  have henums := map_withLineFeeds_enumerationsOf hreturn hsplice unit.path unit.includePath
    (namespaceOf unit.text.toList)
  rw [String.ofList_toList] at henums
  simp only [recognize, toList_text_withReturns, namespaceOf_withReturns]
  exact henums

theorem diagnostics_withReturns :
    (recognize unit.withReturns).diagnostics.map Diagnostic.apartFromOffset =
      (recognize unit).diagnostics.map Diagnostic.apartFromOffset := by
  have hfile : ∀ path (ds : List Diagnostic), (ds.map (·.inFile path)).map
      Diagnostic.apartFromOffset = (ds.map Diagnostic.apartFromOffset).map (·.inFile path) := by
    intro path ds
    rw [List.map_map, List.map_map]
    rfl
  have hmembers : (((regionOf (Text.withReturns unit.text.toList)).1.map fun r =>
        (methodsOf r.className r.body r.bodyOffset
          (Text.withReturns unit.text.toList)).2).getD []).map Diagnostic.apartFromOffset =
      (((regionOf unit.text.toList).1.map fun r =>
        (methodsOf r.className r.body r.bodyOffset unit.text.toList).2).getD []).map
          Diagnostic.apartFromOffset := by
    rw [fst_regionOf_withReturns]
    cases hr : (regionOf unit.text.toList).1 with
    | none => rfl
    | some r => exact (methodsOf_withReturns hreturn hsplice hr).2
  have henums := snd_enumerationsOf_withReturns unit.path unit.includePath
    (namespaceOf unit.text.toList) unit.text.toList
  rw [String.ofList_toList] at henums
  rw [diagnostics_recognize, diagnostics_recognize, toList_text_withReturns,
    namespaceOf_withReturns, hfile, hfile]
  simp only [List.map_append, snd_regionOf_withReturns, hmembers, ← henums]
  rfl

end

/-- With a carriage return before each newline the same is recognized of a header: its namespace,
its class, the body of which has other line endings as well, its enumerations up to the line endings
in their values, and its diagnostics up to their offsets. -/
theorem recognize_withReturns (unit : SourceUnit) (hreturn : '\r' ∉ unit.text.toList)
    (hsplice : ¬ ['\\', '\n'] <:+: unit.text.toList) :
    (recognize unit.withReturns).scope = (recognize unit).scope ∧
      (recognize unit.withReturns).class? = (recognize unit).class?.map ScriptClass.withReturns ∧
      (recognize unit.withReturns).enums.map Enumeration.withLineFeeds = (recognize unit).enums ∧
      (recognize unit.withReturns).diagnostics.map Diagnostic.apartFromOffset =
        (recognize unit).diagnostics.map Diagnostic.apartFromOffset := by
  refine ⟨?_, class?_withReturns unit hreturn hsplice, enums_withReturns unit hreturn hsplice,
    diagnostics_withReturns unit hreturn hsplice⟩
  have hscope : ∀ unit : SourceUnit, (recognize unit).scope = namespaceOf unit.text.toList :=
    fun _ => rfl
  rw [hscope, hscope, toList_text_withReturns, namespaceOf_withReturns]

/-- A header with a member that goes on over its line, and an enumeration over many lines. -/
def moodHeader : SourceUnit :=
  ⟨"mood.h", "mood.h",
    "class A \x7b\n//= BEGIN SCRIPTABLE\nint hp();\n  int hit(\n//= END SCRIPTABLE\n" ++
      "//= SCRIPTABLE ENUM\nenum Mood \x7b\n  CALM,\n  ANGRY\n\x7d;\n"⟩

theorem mood_withReturns :
    ('\r' ∉ moodHeader.text.toList ∧ ¬ ['\\', '\n'] <:+: moodHeader.text.toList) ∧
      (recognize moodHeader.withReturns).scope = none ∧
      (recognize moodHeader.withReturns).class?.map
        (fun c => (c.name, c.methods.entries.map Prod.fst)) = some ("A", ["hp"]) ∧
      (recognize moodHeader.withReturns).enums.map
        (fun e => (e.name, e.values.map valueLineFeeds)) = [("A::Mood", ["CALM", "ANGRY"])] ∧
      (recognize moodHeader.withReturns).diagnostics.map
        (fun d => (d.code, d.location.map Location.place)) =
          [("scriptgen::unrecognized-signature", some (4, 3))] := by
  have hplain : '\r' ∉ moodHeader.text.toList ∧ ¬ ['\\', '\n'] <:+: moodHeader.text.toList := by
    decide +kernel
  have hfacts : (recognize moodHeader).scope = none ∧
      (recognize moodHeader).class?.map (fun c => (c.name, c.methods.entries.map Prod.fst)) =
        some ("A", ["hp"]) ∧
      (recognize moodHeader).enums.map (fun e => (e.name, e.values)) =
        [("A::Mood", ["CALM", "ANGRY"])] ∧
      (recognize moodHeader).diagnostics.map (fun d => (d.code, d.location.map Location.place)) =
        [("scriptgen::unrecognized-signature", some (4, 3))] := by
    decide +kernel
  obtain ⟨hscope, hclass, henums, hdiagnostics⟩ :=
    recognize_withReturns moodHeader hplain.1 hplain.2
  refine ⟨hplain, hscope.trans hfacts.1, ?_, ?_, ?_⟩
  · rw [hclass, Option.map_map]
    exact hfacts.2.1
  · have h := congrArg (List.map fun e : Enumeration => (e.name, e.values)) henums
    rw [List.map_map] at h
    exact h.trans hfacts.2.2.1
  · have hplace : ∀ d : Diagnostic,
        (d.apartFromOffset.code, d.apartFromOffset.location.map Location.place) =
          (d.code, d.location.map Location.place) := by
      intro d
      rw [Diagnostic.apartFromOffset, Option.map_map]
      rfl
    have h := congrArg (List.map fun d : Diagnostic => (d.code, d.location.map Location.place))
      hdiagnostics
    rw [List.map_map, List.map_map] at h
    simp only [Function.comp_def, hplace] at h
    exact h.trans hfacts.2.2.2

end ChaiBind
