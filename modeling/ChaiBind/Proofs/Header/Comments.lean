import ChaiBind.Proofs.Header.LineEnds

/-!
# Comments at the end of a line

What a header declares is the same with a comment at the end of one of its lines, as long
as nothing that is read without regard to comments is read over the end of the line or in
the comment: a namespace opening, the line of a class declaration, or a marked enumeration
(`GoesUnread`).

* `declared_recognize_comment`: what a header declares with a comment.
-/

namespace ChaiBind

open Text Header

namespace Recognized

/-- All that a header declares. The text of a region, in which comments stay, is seen only through
the table of its methods. -/
def declared (r : Recognized) : Recognized :=
  { r with class? := r.class?.map fun k => { k with body := "" }, diagnostics := [] }

end Recognized

namespace Header

/-- Nothing is read over the end of a line, or in a comment there, by what does not know comments. -/
structure GoesUnread (lines line c rest : List Char) : Prop where
  /-- No marker stands on the line, which would be in a literal. -/
  unmarked : ∀ m : Marker, m.sites line = []
  /-- No namespace is opened over the end of the line, and none in the comment. -/
  spacesOver : openingsBefore (lines ++ line) rest = namespaceOpenings (lines ++ line)
  spacesIn : openingsBefore c rest = []
  /-- A semicolon would make a declaration on the line one of a class defined elsewhere. -/
  semicolon : (declaredName? line).isSome → ';' ∉ c
  attributes : ClosesAttributes line ∨ ']' ∉ c
  /-- A region that is open at the line, which is read from its marker on, has the end of the line
  in code. -/
  region : ∀ s ∈ (Marker.regionBegin.sites lines).head?,
    (∀ e ∈ Marker.regionEnd.sites lines, e.start < s.stop) →
      ∃ afterWord, Scan.start.after (s.rest ++ line) none = .code afterWord
  enums : ∀ s ∈ Marker.enumeration.sites lines, AdmitsComment (s.rest ++ line) c rest

section

variable {path includePath : String} {cs cs' : List Char}

theorem declared_recognize (path includePath : String) (cs : List Char) :
    (recognize ⟨path, includePath, String.ofList cs⟩).declared =
      { scope := namespaceOf cs
        class? := (regionOf cs).1.map fun r =>
          { name := r.className
            scope := namespaceOf cs
            includePath
            path
            body := ""
            bases := basesOf cs
            ancestors := []
            methods := (methodsOf r.className r.body r.bodyOffset cs).1 }
        enums := (enumerationsOf ⟨path, includePath, String.ofList cs⟩ (namespaceOf cs)).1
        diagnostics := [] } := by
  simp only [recognize, Recognized.declared, String.toList_ofList, Option.map_map]
  cases (regionOf cs).1 with
  | none => rfl
  | some r => simp only [Option.map_some, Function.comp_apply, regionClass, String.toList_ofList]

/-- The class of a header is that of its region, in the namespace of the header. -/
theorem exists_region_of_class? {k : ScriptClass}
    (hk : (recognize ⟨path, includePath, String.ofList cs⟩).class? = some k) :
    ∃ r, (regionOf cs).1 = some r ∧ k.name = r.className ∧ k.scope = namespaceOf cs := by
  have hclass := congrArg Recognized.class? (declared_recognize path includePath cs)
  rw [Recognized.declared, hk] at hclass
  obtain ⟨r, hr, hsame⟩ := Option.map_eq_some_iff.1 hclass.symm
  exact ⟨r, hr, (congrArg ScriptClass.name hsame).symm, (congrArg ScriptClass.scope hsame).symm⟩

/-- Headers declare the same if they agree in all that declarations are made of. -/
theorem declared_recognize_congr (hscope : namespaceOf cs = namespaceOf cs')
    (hcode : codeLines cs = codeLines cs') (hregion : regionCode cs = regionCode cs')
    (hbases : basesOf cs = basesOf cs')
    (henums : ∀ scope, (enumerationsOf ⟨path, includePath, String.ofList cs⟩ scope).1 =
      (enumerationsOf ⟨path, includePath, String.ofList cs'⟩ scope).1) :
    (recognize ⟨path, includePath, String.ofList cs⟩).declared =
      (recognize ⟨path, includePath, String.ofList cs'⟩).declared := by
  rw [declared_recognize, declared_recognize, hscope, hbases, henums]
  rw [regionCode, regionCode] at hregion
  cases hr : (regionOf cs).1 with
  | none =>
    rw [hr, Option.map_none, eq_comm, Option.map_eq_none_iff] at hregion
    rw [hregion]
    rfl
  | some r =>
    rw [hr, Option.map_some, eq_comm, Option.map_eq_some_iff] at hregion
    obtain ⟨r', hr', heq⟩ := hregion
    obtain ⟨hname, hbody⟩ := Prod.mk.inj heq
    have hmethods : (methodsOf r.className r.body r.bodyOffset cs).1 =
        (methodsOf r.className r'.body r'.bodyOffset cs').1 := fst_methodsOf_congr hbody.symm hcode
    rw [hr', Option.map_some, Option.map_some, hmethods, hname]

end

/-- A header declares the same with a comment at the end of a line, if the comment goes unread. -/
theorem declared_recognize_comment {lines line c rest : List Char}
    (h : EndsInCode lines line c rest) (hc : GoesUnread lines line c rest)
    (path includePath : String) :
    (recognize ⟨path, includePath, String.ofList (lines ++ line ++ (lineComment c ++ rest))⟩).declared =
      (recognize ⟨path, includePath, String.ofList (lines ++ line ++ rest)⟩).declared := by
  have hfilling : IsFilling c (lineComment c) := .comment
  have hname := declaredName?_lineComment hc.semicolon hc.attributes
  obtain ⟨afterWord, hcode⟩ := h.code
  have hbases : basesOf (lines ++ line ++ (lineComment c ++ rest)) =
      basesOf (lines ++ line ++ rest) := by
    rw [basesOf_filled h hfilling (hc.unmarked _),
      ← basesOf_filled (w := []) h .empty (hc.unmarked _), List.nil_append]
  have hscope : namespaceOf (lines ++ line ++ (lineComment c ++ rest)) =
      namespaceOf (lines ++ line ++ rest) := by
    rw [namespaceOf, namespaceOpenings_comment h.ends hc.spacesOver hc.spacesIn, namespaceOf]
  refine declared_recognize_congr hscope (codeLines_comment h.comment h.ends hcode) ?_ hbases
    fun scope => ?_
  · exact regionCode_filled h hfilling hc.unmarked hname hc.region
  · exact fst_enumerationsOf_filled h hfilling path includePath scope hc.unmarked hname hc.enums

/-- A comment behind an enumerator, in the region of a class. -/
theorem color_declared :
    let lines := "namespace Game \x7b\nclass Foo \x7b\n//= BEGIN SCRIPTABLE\n".toList ++
      "//= SCRIPTABLE ENUM\nenum class Color : int \x7b\n".toList
    let line := "  RED = 1,".toList
    let c := "Foo() \x7b; 'n".toList
    let rest := "\n  BLUE\n\x7d;\nvoid set(Color c);\n//= END SCRIPTABLE\n\x7d;\n\x7d\n".toList
    EndsInCode lines line c rest ∧ GoesUnread lines line c rest ∧
      (recognize ⟨"a.h", "a.h", String.ofList (lines ++ line ++ (lineComment c ++ rest))⟩).declared =
        (recognize ⟨"a.h", "a.h", String.ofList (lines ++ line ++ rest)⟩).declared := by
  intro lines line c rest
  have hends : EndsInCode lines line c rest := by
    refine ⟨by decide, by decide, by decide, ⟨false, by decide +kernel⟩, by decide, fun m => ?_⟩
    cases m <;> rfl
  have henums : ∀ s ∈ Marker.enumeration.sites lines, AdmitsComment (s.rest ++ line) c rest := by
    have hsites : Marker.enumeration.sites lines = [⟨50, 69, "\nenum class Color : int \x7b\n".toList⟩] := by
      decide +kernel
    rw [hsites]
    intro s hs
    obtain rfl := List.mem_singleton.1 hs
    refine .inBody ⟨true, "Color".toList, ": int \x7b\n  RED = 1,".toList⟩ "\n  RED = 1,".toList rfl rfl
      (by decide) ⟨false, rfl⟩ (by decide)
  have hunread : GoesUnread lines line c rest := by
    refine ⟨fun m => ?_, ?_, ?_, by decide, by decide, ?_, henums⟩
    · cases m <;> rfl
    · rfl
    · rfl
    · intro s hs _
      have hsites : Marker.regionBegin.sites lines = [⟨29, 49,
        "\n//= SCRIPTABLE ENUM\nenum class Color : int \x7b\n".toList⟩] := by decide +kernel
      rw [hsites] at hs
      obtain rfl := Option.some.inj hs
      exact ⟨false, rfl⟩
  exact ⟨hends, hunread, declared_recognize_comment hends hunread "a.h" "a.h"⟩

/-- A namespace is lost if a comment stands between its name and its brace. -/
theorem game_unread :
    let line := "namespace Game".toList
    let c := "c".toList
    let rest := "\n\x7b\n//= SCRIPTABLE ENUM\nenum Color \x7b RED \x7d;\n\x7d\n".toList
    EndsInCode [] line c rest ∧
      (recognize ⟨"a.h", "a.h", String.ofList (line ++ rest)⟩).scope = some "Game" ∧
      (recognize ⟨"a.h", "a.h", String.ofList (line ++ (lineComment c ++ rest))⟩).scope = none := by
  intro line c rest
  have hends : EndsInCode [] line c rest := by
    refine ⟨by decide, by decide, by decide, ⟨true, rfl⟩, by decide, fun m => ?_⟩
    cases m <;> rfl
  exact ⟨hends, by decide +kernel, by decide +kernel⟩

end Header

end ChaiBind
