import ChaiBind.Proofs.Header.RemarkedRegions
import ChaiBind.Proofs.Text.Trivia

/-!
# Remarks at the marker that begins a region

A region starts right behind its marker, so that a remark there is read as the first line of the
region, without the slashes of its comment. Where it has no part in anything else (`StaysApart`), a
header with it is read as without it exactly if that line is passed over
(`reading_recognize_remark_iff`).

* `AdmitsRemark.readEnumeration?_eq`: a remark at a marked enumeration.
* `methodsOf_remark`: the remark as a line of the region.
-/

namespace ChaiBind

open Text Header

namespace Recognized

/-- What a header declares, and the code and the line of each of its diagnostics. -/
def reading (r : Recognized) : Recognized × List (String × Option Nat) :=
  (r.declared, r.diagnostics.map Diagnostic.codeAndLine)

end Recognized

namespace Header

/-! ## In a comment -/

/-- What starts with a space, or ends a line, opens no comment behind a slash. -/
theorem not_opens_of_space {w rest : List Char} (hrest : StartsLine rest)
    (hspace : ∀ d ∈ w.head?, d = ' ') : ¬ Scan.Opens (w ++ rest).head? := by
  cases w with
  | nil => exact hrest.not_opens
  | cons d w =>
    obtain rfl := hspace d rfl
    simp [Scan.Opens]

section Comment

variable {w rest : List Char} (hw : '\n' ∉ w) (hrest : StartsLine rest)
include hw hrest

theorem stripFrom_remark : stripFrom .lineComment (w ++ rest) = stripComments rest := by
  rw [stripFrom_append, stripPart_lineComment hw, after_lineComment hw,
    (stripFrom_of_startsLine hrest false).2, List.nil_append]

theorem skipTriviaFrom_remark : skipTriviaFrom .lineComment (w ++ rest) = skipTrivia rest := by
  have hall : ∀ c ∈ w, decide (c ≠ '\n') = true := fun c hc => decide_eq_true fun e => hw (e ▸ hc)
  rw [skipTriviaFrom_lineComment_eq, List.dropWhile_append_of_pos hall]
  rcases hrest.eq_nil_or with rfl | ⟨ds, rfl⟩
  · rfl
  · rfl

omit hw hrest in
theorem stripComments_append_of_comment {u v : List Char}
    (hcomment : Scan.start.after u none = .lineComment) (hv : ¬ Scan.Opens v.head?) :
    stripComments (u ++ v) = stripPart .start u none ++ stripFrom .lineComment v := by
  have hnone : ¬ Scan.Opens none := by simp [Scan.Opens]
  rw [stripComments, stripFrom_append, Scan.after_eq_of_not_opens _ u hv hnone,
    stripPart_eq_of_not_opens _ u hv hnone, hcomment]

/-- A remark in a comment is stripped with it. -/
theorem stripComments_remark {u : List Char} (hcomment : Scan.start.after u none = .lineComment)
    (hspace : ∀ d ∈ w.head?, d = ' ') :
    stripComments (u ++ (w ++ rest)) = stripComments (u ++ rest) := by
  rw [stripComments_append_of_comment hcomment (not_opens_of_space hrest hspace),
    stripComments_append_of_comment hcomment hrest.not_opens, stripFrom_remark hw hrest,
    (stripFrom_of_startsLine hrest false).2]

end Comment

/-- What comes between the marker of an enumeration and a remark lets the remark be: they are in a
comment in front of the declaration or among its enumerators, in its underlying type, or behind what
is read. -/
inductive AdmitsRemark (t w : List Char) : Prop
  | before (blank : skipTrivia t = []) (comment : Scan.start.after t none = .lineComment)
  | behind (complete : (enumDeclaration? (skipTrivia t)).isSome)
  | other (fails : ∀ v, enumDeclaration? (skipTrivia t ++ v) = none)
  | inType (head : EnumHead) (ty : List Char) (found : enumHead? (skipTrivia t) = some head)
      (opened : head.rest = ':' :: ty) (goesOn : StaysInType ty ∧ StaysInType w)
  | inBody (head : EnumHead) (body : List Char) (found : enumHead? (skipTrivia t) = some head)
      (opened : enumOpening? head.rest = some body) (goesOn : '}' ∉ body ∧ '}' ∉ w)
      (comment : Scan.start.after body none = .lineComment)

/-- With a remark where it is admitted, an enumeration is read as without it. -/
theorem AdmitsRemark.readEnumeration?_eq {t w rest : List Char} (h : AdmitsRemark t w) (hw : '\n' ∉ w)
    (hrest : StartsLine rest) (hspace : ∀ d ∈ w.head?, d = ' ') :
    readEnumeration? (t ++ (w ++ rest)) = readEnumeration? (t ++ rest) := by
  have hopens := not_opens_of_space hrest hspace
  have hline := hrest.not_opens
  cases h with
  | before blank comment =>
    rw [readEnumeration?, readEnumeration?, skipTrivia_append hopens, if_pos blank,
      skipTrivia_append hline, if_pos blank, comment, skipTriviaFrom_remark hw hrest,
      (skipTriviaFrom_of_startsLine hrest false).2]
  | behind complete =>
    rw [readEnumeration?_append_of_isSome complete hopens,
      readEnumeration?_append_of_isSome complete hline]
  | other fails =>
    rw [readEnumeration?_append_eq_none fails hopens, readEnumeration?_append_eq_none fails hline]
  | inType head ty found opened goesOn =>
    have hbody : StartsBody head.rest := .inl (by rw [opened]; rfl)
    have hhead : rest.head? ≠ some '{' ∧ rest.head? ≠ some ';' := by
      rcases hrest.eq_nil_or with rfl | ⟨ds, rfl⟩ <;> simp
    have hty : StaysInType (ty ++ w) := by
      simpa [StaysInType] using ⟨⟨goesOn.1.1, goesOn.2.1⟩, goesOn.1.2, goesOn.2.2⟩
    have hopening : enumOpening? (head.rest ++ (w ++ rest)) = enumOpening? (head.rest ++ rest) := by
      rw [opened, List.cons_append, List.cons_append, ← List.append_assoc,
        enumOpening?_type hty hhead, enumOpening?_type goesOn.1 hhead]
    rw [readEnumeration?_of_enumHead? found hbody hopens,
      readEnumeration?_of_enumHead? found hbody hline, enumBody?, hopening, ← enumBody?]
  | inBody head body found opened goesOn comment =>
    have hbody := startsBody_of_enumOpening? opened
    have hclosed : (closedBody? (body ++ (w ++ rest))).map enumerators =
        (closedBody? (body ++ rest)).map enumerators := by
      rw [closedBody?_append_of_notMem goesOn.1, closedBody?_append_of_notMem goesOn.2,
        closedBody?_append_of_notMem goesOn.1]
      cases hm : closedBody? rest with
      | none => rfl
      | some m =>
        obtain ⟨after, rfl, -, -⟩ := closedBody?_eq_some_iff.1 hm
        have hstart : StartsLine m := fun d hd =>
          hrest d (by rw [List.head?_append, Option.mem_def.1 hd]; rfl)
        simp only [Option.map_some, enumerators, stripComments_remark hw hstart comment hspace]
    rw [readEnumeration?_of_enumHead? found hbody hopens,
      readEnumeration?_of_enumHead? found hbody hline, enumBody?, enumBody?,
      enumOpening?_append opened, enumOpening?_append opened, Option.bind_some, Option.bind_some,
      hclosed]

/-! ## As a line of the region -/

/-- What the region has of a remark on its first line. -/
def remarkCode (w : List Char) : List Char := lineCode (stripComments (w ++ ['\n']))

theorem pairedLines_remark {w : List Char} (hw : '\n' ∉ w) :
    pairedLines (w ++ ['\n']) = [(w ++ ['\n'], stripComments (w ++ ['\n']))] := by
  have hone : inclusiveLines (w ++ ['\n']) = [w ++ ['\n']] := inclusiveLines_append_newline hw []
  have hlength := length_inclusiveLines_stripComments (endsLine_append_newline w)
  rw [hone, List.length_singleton, List.length_eq_one_iff] at hlength
  obtain ⟨line, hline⟩ := hlength
  have hflatten := flatten_inclusiveLines (stripComments (w ++ ['\n']))
  rw [hline, List.flatten_singleton] at hflatten
  rw [pairedLines, hone, hline, hflatten]
  rfl

/-- Of a region with a remark at its start, the remark is the first line. -/
theorem methodsOf_remark {w : List Char} (hw : '\n' ∉ w) {afterWord : Bool}
    (hscan : Scan.start.after (w ++ ['\n']) none = .code afterWord)
    (hbraces : depthAfter 0 (remarkCode w) = 0) (className : String) (body text : List Char)
    (offset : Nat) :
    let first := (offset + byteLength (leadingBlank (w ++ ['\n'])),
      readLine className (countedCode text) (remarkCode w))
    let others := methodsOf className body (offset + byteLength (w ++ ['\n'])) text
    methodsOf className (w ++ '\n' :: body) offset text =
      ((membersOf [first]).append others.1, findingsOf text [first] ++ others.2) := by
  intro first others
  have hpaired := pairedLines_remark hw
  have hdepth : depthThrough 0 (pairedLines (w ++ ['\n'])) = 0 := by
    rw [hpaired]
    exact hbraces
  have hsplit : w ++ '\n' :: body = (w ++ ['\n']) ++ body := by
    rw [List.append_assoc, List.singleton_append]
  have hreadings : readBody className (w ++ ['\n']) offset text = [first] := by
    rw [readBody, hpaired]
    rfl
  rw [hsplit, methodsOf_append className text offset (endsLine_append_newline w) hscan hdepth]
  rw [methodsOf, hreadings]

/-- The lines at which findings are reported are counted on behind a part of a text. -/
theorem codeAndLine_findingsOf (className : String) (code u v : List Char) (offset depth : Nat)
    (lines : List (List Char × List Char)) :
    (findingsOf (u ++ v) (readLines className code (byteLength u + offset) depth lines)).map
        Diagnostic.codeAndLine =
      (findingsOf v (readLines className code offset depth lines)).map fun d =>
        (d.code, d.location.map fun l => u.count '\n' + l.line) := by
  induction lines generalizing offset depth with
  | nil => rfl
  | cons p lines ih =>
    have hrest := ih (offset + byteLength p.1) (depthAfter depth (lineCode p.2))
    rw [← Nat.add_assoc] at hrest
    have hcons : ∀ text r rs, findingsOf text (r :: rs) = findingsOf text [r] ++ findingsOf text rs :=
      fun text r rs => findingsOf_append text [r] rs
    rw [readLines_cons, readLines_cons, hcons, hcons v, List.map_append, List.map_append, hrest]
    congr 1
    cases readingAt className code depth p with
    | ignored | member => rfl
    | reported f =>
      have hline := line_locate_append_add u v (offset + byteLength (leadingBlank p.1))
      rw [← Nat.add_assoc] at hline
      exact congrArg (fun n => [(f.code, some n)]) hline

/-! ## The header -/

/-- What does not know comments reads nothing in a remark, and the region closes at its end what it
opens in it. -/
structure StaysApart (lines line w rest : List Char) : Prop where
  /-- The marker is a comment, or part of one. -/
  comment : Scan.start.after (lines ++ line) none = .lineComment
  openings : openingsBefore w rest = []
  /-- The bases are listed on another line. -/
  bases : ∀ s ∈ (Marker.bases.sites (lines ++ line)).head?, '\n' ∈ s.rest
  enums : ∀ s ∈ Marker.enumeration.sites (lines ++ line), AdmitsRemark s.rest w
  scan : ∃ afterWord, Scan.start.after (w ++ ['\n']) none = .code afterWord
  braces : depthAfter 0 (remarkCode w) = 0

theorem AdmitsRemark.empty {t w : List Char} (h : AdmitsRemark t w) : AdmitsRemark t [] := by
  cases h with
  | before blank comment => exact .before blank comment
  | behind complete => exact .behind complete
  | other fails => exact .other fails
  | inType head ty found opened goesOn => exact .inType head ty found opened ⟨goesOn.1, by decide⟩
  | inBody head body found opened goesOn comment =>
    exact .inBody head body found opened ⟨goesOn.1, List.not_mem_nil⟩ comment

theorem StaysApart.empty {lines line w rest : List Char} (h : StaysApart lines line w rest) :
    StaysApart lines line [] rest where
  comment := h.comment
  openings := rfl
  bases := h.bases
  enums s hs := (h.enums s hs).empty
  scan := ⟨false, rfl⟩
  braces := rfl

section Header

variable {lines line w rest : List Char} (h : IsRemark lines line w ('\n' :: rest))
  (hw : StaysApart lines line w ('\n' :: rest))
include h hw

omit hw in
theorem newline_notMem_remark : '\n' ∉ w := fun hmem => h.same (List.mem_append_right line hmem)

theorem countedCode_remark :
    countedCode (lines ++ line ++ (w ++ '\n' :: rest)) =
      countedCode (lines ++ line ++ '\n' :: rest) := by
  rw [countedCode, stripComments_remark (newline_notMem_remark h) h.ends hw.comment h.apart,
    countedCode]

/-- The methods of a region with a remark at its start are those of the other lines, behind what the
remark is read as. -/
theorem methodsOf_region_remark (className : String) (body : List Char) :
    let text := lines ++ line ++ (w ++ '\n' :: rest)
    let code := countedCode (lines ++ line ++ '\n' :: rest)
    let first := (byteLength (lines ++ line) + byteLength (leadingBlank (w ++ ['\n'])),
      readLine className code (remarkCode w))
    let others := readLines className code 0 0 (pairedLines body)
    (methodsOf className (w ++ '\n' :: body) (byteLength (lines ++ line)) text).1 =
        (membersOf [first]).append (membersOf others) ∧
      (methodsOf className (w ++ '\n' :: body) (byteLength (lines ++ line)) text).2.map
          Diagnostic.codeAndLine =
        (findingsOf text [first]).map Diagnostic.codeAndLine ++
          (findingsOf rest others).map fun d =>
            (d.code, d.location.map fun l => (lines ++ line).count '\n' + 1 + l.line) := by
  intro text code first others
  obtain ⟨afterWord, hscan⟩ := hw.scan
  have hmethods := methodsOf_remark (newline_notMem_remark h) hscan hw.braces className body text
    (byteLength (lines ++ line))
  have hcode : countedCode text = code := countedCode_remark h hw
  -- the other lines stand behind the newline at the end of the remark
  have htext : text = (lines ++ line ++ (w ++ ['\n'])) ++ rest := by
    simp only [text, List.append_assoc, List.singleton_append]
  have hcount : (lines ++ line ++ (w ++ ['\n'])).count '\n' = (lines ++ line).count '\n' + 1 := by
    have hw : w.count '\n' = 0 := List.count_eq_zero.2 (newline_notMem_remark h)
    simp only [List.count_append, hw, Nat.zero_add, List.count_singleton_self]
  rw [hmethods, hcode]
  dsimp only
  refine ⟨?_, ?_⟩
  · rw [fst_methodsOf, hcode, membersOf_eq_tableOf others, filterMap_readLines, map_snd_pairedLines]
  · have hbehind := codeAndLine_findingsOf className code (lines ++ line ++ (w ++ ['\n'])) rest 0 0
      (pairedLines body)
    rw [← htext, Nat.add_zero, byteLength_append _ (w ++ ['\n']), hcount] at hbehind
    rw [List.map_append, methodsOf, readBody, hcode]
    exact congrArg (_ ++ ·) hbehind

/-- A header with a remark is read as without it, but for what the remark is read as: the members of
the region come behind those of the remark, and so do the diagnostics of its lines. -/
theorem reading_remark (path includePath : String) {start : Nat} {last : Marker.Site}
    {owner : ClassDeclaration}
    (hbegin : Marker.regionBegin.sites (lines ++ line) = [⟨start, byteLength (lines ++ line), []⟩])
    (hlast : (Marker.regionEnd.sites ('\n' :: rest)).head? = some last)
    (howner : owningClass? (classDeclarations (lines ++ line)) start = some owner) :
    let plain := lines ++ line ++ '\n' :: rest
    let text := lines ++ line ++ (w ++ '\n' :: rest)
    let scope := namespaceOf plain
    let enums := enumerationsOf ⟨path, includePath, String.ofList plain⟩ scope
    let first := (byteLength (lines ++ line) + byteLength (leadingBlank (w ++ ['\n'])),
      readLine owner.name (countedCode plain) (remarkCode w))
    let others := readLines owner.name (countedCode plain) 0 0
      (pairedLines (takeBytes (last.start - 1) rest))
    (recognize ⟨path, includePath, String.ofList text⟩).reading =
      ({ scope
         class? := some
          { name := owner.name
            scope
            includePath
            path
            body := ""
            bases := basesOf plain
            ancestors := []
            methods := (membersOf [first]).append (membersOf others) }
         enums := enums.1
         diagnostics := [] },
        (regionOf plain).2.map Diagnostic.codeAndLine ++
          ((findingsOf text [first]).map Diagnostic.codeAndLine ++
            (findingsOf rest others).map fun d =>
              (d.code, d.location.map fun l => (lines ++ line).count '\n' + 1 + l.line)) ++
          enums.2.map Diagnostic.codeAndLine) := by
  intro plain text scope enums first others
  obtain ⟨hregion, hsaid⟩ := regionOf_remark h hbegin hlast howner
  have hsame := hsaid.trans (regionOf_remark h.empty hbegin hlast howner).2.symm
  have hbody : takeBytes last.start ('\n' :: rest) = '\n' :: takeBytes (last.start - 1) rest := by
    have hpos := Marker.start_pos_of_mem_sites h.ends (List.mem_of_head? hlast)
    exact if_pos hpos
  obtain ⟨htable, hfound⟩ :=
    methodsOf_region_remark h hw owner.name (takeBytes (last.start - 1) rest)
  have hscope : namespaceOf text = scope := by
    rw [namespaceOf, namespaceOpenings_remark h hw.openings, ← namespaceOf]
  have hbases : basesOf text = basesOf plain :=
    (basesOf_remark h hw.bases).trans (basesOf_remark h.empty hw.bases).symm
  have hread : ∀ s ∈ Marker.enumeration.sites (lines ++ line),
      readEnumeration? (s.rest ++ (w ++ '\n' :: rest)) = readEnumeration? (s.rest ++ '\n' :: rest) :=
    fun s hs => (hw.enums s hs).readEnumeration?_eq (newline_notMem_remark h) h.ends h.apart
  have henums : (enumerationsOf ⟨path, includePath, String.ofList text⟩ scope).1 = enums.1 :=
    (fst_enumerationsOf_remark h path includePath scope hread).trans
      (fst_enumerationsOf_remark h.empty path includePath scope fun _ _ => rfl).symm
  have hmissing : (enumerationsOf ⟨path, includePath, String.ofList text⟩ scope).2.map
      Diagnostic.codeAndLine = enums.2.map Diagnostic.codeAndLine :=
    (snd_enumerationsOf_remark h path includePath scope hread).trans
      (snd_enumerationsOf_remark h.empty path includePath scope fun _ _ => rfl).symm
  have hfile : ∀ ds : List Diagnostic, (ds.map (·.inFile path)).map Diagnostic.codeAndLine =
      ds.map Diagnostic.codeAndLine := by
    intro ds
    rw [List.map_map]
    rfl
  rw [hbody] at hregion
  rw [Recognized.reading, declared_recognize, diagnostics_recognize, hfile, List.map_append,
    List.map_append, String.toList_ofList, hregion, hscope, hsame, henums, hmissing, hbases,
    Option.map_some, Option.map_some, Option.getD_some, htable, hfound]
  rfl

omit h hw in
theorem append_member_ne (offset : Nat) (name : String) (o : Overload) (t : MethodTable) :
    (membersOf [(offset, .member name o)]).append t ≠ t := by
  intro heq
  have hget := congrArg (fun t : MethodTable => ((t.get? name).getD []).length) heq
  have hone : (membersOf [(offset, .member name o)]).get? name = some [o] :=
    (MethodTable.get?_push Table.empty name o name).trans (if_pos rfl)
  simp [MethodTable.get?_append, hone] at hget

/-- A header is read as without a remark, from which everything else stays apart, exactly if the
remark is passed over as a line of the region. -/
theorem reading_recognize_remark_iff (path includePath : String) {k : ScriptClass}
    (hk : (recognize ⟨path, includePath, String.ofList (lines ++ line ++ '\n' :: rest)⟩).class? =
      some k) :
    (recognize ⟨path, includePath,
        String.ofList (lines ++ line ++ (w ++ '\n' :: rest))⟩).reading =
      (recognize ⟨path, includePath, String.ofList (lines ++ line ++ '\n' :: rest)⟩).reading ↔
    readLine k.name (countedCode (lines ++ line ++ '\n' :: rest)) (remarkCode w) = .ignored := by
  obtain ⟨r, hr, hname, -⟩ := exists_region_of_class? hk
  obtain ⟨start, last, owner, hbegin, hlast, howner, hclass⟩ := exists_owner_remark h.empty hr
  have hplain := reading_remark h.empty hw.empty path includePath hbegin hlast howner
  rw [List.nil_append] at hplain
  have hignored : readLine owner.name (countedCode (lines ++ line ++ '\n' :: rest)) (remarkCode []) =
      .ignored := rfl
  rw [reading_remark h hw path includePath hbegin hlast howner, hplain, hname,
    hclass]
  rw [hignored]
  constructor
  · intro heq
    obtain ⟨hdeclared, hdiagnostics⟩ := Prod.mk.inj heq
    cases hreading : readLine owner.name (countedCode (lines ++ line ++ '\n' :: rest))
      (remarkCode w) with
    | ignored => rfl
    | reported f =>
      rw [hreading] at hdiagnostics
      have hlength := congrArg List.length hdiagnostics
      simp [findingsOf] at hlength
    | member name o =>
      rw [hreading] at hdeclared
      have htable := congrArg (fun r => (r.class?.map (·.methods)).getD Table.empty) hdeclared
      exact absurd (htable.trans (MethodTable.empty_append _)) (append_member_ne _ name o _)
  · intro hreading
    rw [hreading]
    rfl

end Header

/-- A remark that is passed over, with an enumeration in front of it and a finding behind it. -/
theorem sprite_reading :
    let lines := "namespace Game \x7b\n//= SCRIPTABLE BASES Node\n//= SCRIPTABLE ENUM\n".toList ++
      "enum Mode \x7b ON \x7d;\nclass Sprite : public Node \x7b\n".toList
    let line := "  //= BEGIN SCRIPTABLE".toList
    let w := " what a script's menu shows \x7b1\x7d".toList
    let rest := "void show();\nhide();\n//= END SCRIPTABLE\n\x7d;\n\x7d\n".toList
    IsRemark lines line w ('\n' :: rest) ∧ StaysApart lines line w ('\n' :: rest) ∧
      (recognize ⟨"a.h", "a.h", String.ofList (lines ++ line ++ '\n' :: rest)⟩).class?.map (·.name) =
        some "Sprite" ∧
      readLine "Sprite" (countedCode (lines ++ line ++ '\n' :: rest)) (remarkCode w) = .ignored ∧
      (recognize ⟨"a.h", "a.h", String.ofList (lines ++ line ++ (w ++ '\n' :: rest))⟩).reading =
        (recognize ⟨"a.h", "a.h", String.ofList (lines ++ line ++ '\n' :: rest)⟩).reading := by
  intro lines line w rest
  have hremark : IsRemark lines line w ('\n' :: rest) := by
    refine ⟨by decide, by decide, by decide, ?_, by decide +kernel, by decide, by decide +kernel⟩
    have hsites : Marker.regionBegin.sites (lines ++ line ++ '\n' :: rest) =
        [⟨112, 132, '\n' :: rest⟩] := by decide +kernel
    refine ⟨⟨112, 132, '\n' :: rest⟩, ?_, rfl⟩
    rw [Marker.IsFirst, hsites]
    exact ⟨List.mem_singleton_self _, fun t ht => (List.mem_singleton.1 ht) ▸ Nat.le_refl _⟩
  have hapart : StaysApart lines line w ('\n' :: rest) := by
    refine ⟨by decide +kernel, by decide +kernel, by decide +kernel, ?_, ⟨false, by decide +kernel⟩,
      by decide +kernel⟩
    intro s hs
    have hsites : (Marker.enumeration.sites (lines ++ line)).all
        (fun s => (enumDeclaration? (skipTrivia s.rest)).isSome) = true := by decide +kernel
    exact .behind (List.all_eq_true.1 hsites s hs)
  have hname : (recognize ⟨"a.h", "a.h", String.ofList (lines ++ line ++ '\n' :: rest)⟩).class?.map
      (·.name) = some "Sprite" := by decide +kernel
  have hignored : readLine "Sprite" (countedCode (lines ++ line ++ '\n' :: rest)) (remarkCode w) =
      .ignored := by decide +kernel
  obtain ⟨k, hk, hsprite⟩ := Option.map_eq_some_iff.1 hname
  refine ⟨hremark, hapart, hname, hignored, ?_⟩
  exact (reading_recognize_remark_iff hremark hapart "a.h" "a.h" hk).2 (hsprite ▸ hignored)

/-- What a remark says is bound if it looks like a member. -/
theorem foo_bindsRemark :
    let line := "class Foo \x7b\n//= BEGIN SCRIPTABLE".toList
    let w := " void extra();".toList
    let rest := "\nvoid show();\n//= END SCRIPTABLE\n\x7d;\n".toList
    '\n' ∉ w ∧ ¬ Marker.sign <:+: w ∧
      (Marker.regionBegin.sites (line ++ rest)).head?.map (·.rest) = some rest ∧
      ((recognize ⟨"a.h", "a.h", String.ofList (line ++ rest)⟩).class?.map
        (·.methods.keys)) = some ["show"] ∧
      ((recognize ⟨"a.h", "a.h", String.ofList (line ++ (w ++ rest))⟩).class?.map
        (·.methods.keys)) = some ["extra", "show"] := by
  decide +kernel

end Header

end ChaiBind
