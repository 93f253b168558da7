import ChaiBind.Proofs.Header.LiteralSlots
import ChaiBind.Proofs.Header.MemberTable
import ChaiBind.Proofs.Header.Mentions

/-!
# What a literal says in a region

The table of a region is the same whatever a string literal in it says, as long as
the literal says nothing that its line is searched for without regard to literals:
parentheses, braces, the word `operator` and what takes a member away (`IsInert`).
Two kinds of places are left aside, an attribute in front of a type and the
declaration of a parameter outside its default value (`Shelters`).

* `ofList_append_quoted`: parameters of a list with a literal in a default value.
* `member?_readLine_quoted`: the member that a line with a literal declares.
* `fst_methodsOf_quoted`: the table of a region with a literal.
-/

namespace ChaiBind

open Text

/-! ## Default values -/

/-- A part of a parameter list ends in code, in the default value of a parameter. -/
def endsInDefault (list : List Char) : Bool :=
  (match Nesting.start.after ',' list with
    | .code _ _ => true
    | _ => false) &&
  (splitTopLevel ',' list).getLast?.any hasAssignment

/-- The parameters of a list do not depend on a literal in a default value. -/
theorem Param.ofList_append_quoted {first u v : List Char} (h : endsInDefault first)
    (hu : IsLiteralText u) (hv : IsLiteralText v) (last : List Char) :
    Param.ofList (first ++ (quoted u ++ last)) = Param.ofList (first ++ (quoted v ++ last)) := by
  obtain ⟨hcode, hlast⟩ := Bool.and_eq_true_iff.1 h
  obtain ⟨depth, afterWord, hafter⟩ :
      ∃ depth afterWord, Nesting.start.after ',' first = .code depth afterWord := by
    split at hcode
    · exact ⟨_, _, ‹_›⟩
    · cases hcode
  have hassigned : ∀ p ∈ (splitTopLevel ',' first).getLast?, ∀ z,
      trim (beforeAssignment (p ++ z)) = trim (beforeAssignment p) := by
    intro p hp z
    rw [Option.mem_def] at hp
    rw [hp] at hlast
    rw [beforeAssignment_append hlast]
  have hpieces : ∀ w, IsLiteralText w →
      (splitTopLevel ',' (first ++ (quoted w ++ last))).map (fun p => trim (beforeAssignment p)) =
        (splitTopLevel ',' first).map (fun p => trim (beforeAssignment p)) ++
          (splitTopLevelFrom ',' (.code depth false) last).tail.map
            fun p => trim (beforeAssignment p) := by
    intro w hw
    have htail : (splitTopLevelFrom ',' (.code depth afterWord) (quoted w ++ last)).tail =
        (splitTopLevelFrom ',' (.code depth false) last).tail := by
      rw [hw.splitTopLevelFrom_quoted]
      rfl
    rw [splitTopLevel, splitTopLevelFrom_append, hafter, ← htail]
    exact map_joinPieces (f := fun p => trim (beforeAssignment p))
      (splitTopLevelFrom_ne_nil ',' .start first) hassigned _
  simp only [Param.ofList, hpieces u hu, hpieces v hv]

namespace Header

/-! ## Members -/

/-- A signature declares a member. -/
def Signature.declares (className : String) (s : Signature) : Bool :=
  !(s.isDestructor || s.isStatement || !isReturnType s.returnType ||
    !hasBalancedAngles s.returnType) && (s.returnType ≠ [] || String.ofList s.name = className)

theorem member?_readSignature (className : String) (code : List Char) (s : Signature) :
    (readSignature className code s).member? =
      if s.declares className then some (String.ofList s.name, s.overload code) else none := by
  rw [readSignature, Signature.declares]
  cases s.isDestructor || s.isStatement || !isReturnType s.returnType ||
    !hasBalancedAngles s.returnType with
  | true => rfl
  | false =>
    by_cases hreturn : s.returnType = []
    · by_cases hname : String.ofList s.name = className
      · simp [hreturn, hname, LineReading.member?]
      · simp [hreturn, hname, LineReading.member?]
    · simp [hreturn, LineReading.member?]

/-- A line declares a member if its signature does, it takes nothing away and has no operator. -/
theorem member?_readLine (className : String) (code line : List Char) :
    (readLine className code line).member? =
      if isDeleted line || containsWord "operator".toList line then none
      else (signature? line).bind fun s => (readSignature className code s).member? := by
  rw [readLine]
  by_cases hnil : line = []
  · subst hnil
    rfl
  · cases isDeleted line with
    | true => simp [LineReading.member?]
    | false =>
      cases containsWord "operator".toList line with
      | true => simp [hnil, LineReading.member?]
      | false =>
        cases signature? line with
        | some s => simp [hnil]
        | none =>
          simp only [hnil, Bool.or_self, Bool.false_eq_true, if_false, decide_false, Option.bind_none]
          split <;> rfl

/-! ## Lines with a literal -/

/-- A literal that says nothing that a line is searched for. -/
structure IsInert (u : List Char) : Prop where
  text : IsLiteralText u
  parens : NoParens u
  braces : '{' ∉ u ∧ '}' ∉ u
  kept : isDeleted u = false
  word : containsWord "operator".toList u = false

/-- The text on the line before a literal ends behind the list of a signature or in a default value
in it. -/
inductive Signature.KeepsApart (s : Signature) (x : List Char) : Prop
  | behind (gap between : List Char) (blank : ∀ c ∈ gap, isBlank c)
      (split : x = s.before ++ (s.name ++ (gap ++ '(' :: (s.params ++ ')' :: between))))
  | default (gap first : List Char) (blank : ∀ c ∈ gap, isBlank c)
      (split : x = s.before ++ (s.name ++ (gap ++ '(' :: first))) (ends : endsInDefault first)

section Quoted

variable {u : List Char} (hu : IsInert u) (x y : List Char)
include hu

theorem isDeleted_quoted : isDeleted (x ++ (quoted u ++ y)) = (isDeleted x || isDeleted y) := by
  have hcut : ∀ a b, isDeleted (a ++ '"' :: b) = (isDeleted a || isDeleted b) :=
    isDeleted_append_cons (by decide) (by decide) (by decide)
  rw [quoted_append, hcut, hcut, hu.kept, Bool.false_or]

theorem containsWord_operator_quoted :
    containsWord "operator".toList (x ++ (quoted u ++ y)) =
      (containsWord "operator".toList x || containsWord "operator".toList y) := by
  have hcut : ∀ a b, containsWord "operator".toList (a ++ '"' :: b) =
      (containsWord "operator".toList a || containsWord "operator".toList b) :=
    containsWord_append_cons (by decide) (by decide)
  rw [quoted_append, hcut, hcut, hu.word, Bool.false_or]

theorem occurrences_quoted {name : List Char} (hname : ∀ c ∈ name, isWord c) :
    occurrences name (x ++ (quoted u ++ y)) = occurrences name x + occurrences name y := by
  have hquote : '"' ∉ name := notMem_of_isWord hname (by decide)
  have hcut : ∀ a b, occurrences name (a ++ '"' :: b) = occurrences name a + occurrences name b :=
    occurrences_append_cons hquote (by decide) (by decide)
  rw [quoted_append, hcut, hcut, occurrences_of_notMem hu.parens.1, Nat.zero_add]

theorem mentions_quoted {name : List Char} (hname : ∀ c ∈ name, isWord c) :
    mentions name (x ++ (quoted u ++ y)) =
      if isDeleted x || isDeleted y then 0 else occurrences name x + occurrences name y := by
  rw [mentions, isDeleted_quoted hu, occurrences_quoted hu x y hname]

theorem depthAfter_quoted (depth : Nat) :
    depthAfter depth (x ++ (quoted u ++ y)) = depthAfter depth (x ++ y) := by
  have hcount : ∀ c, c ≠ '"' → c ∉ u → (x ++ (quoted u ++ y)).count c = (x ++ y).count c := by
    intro c hc hmem
    have hzero : u.count c = 0 := List.count_eq_zero.2 hmem
    rw [quoted_append, List.count_append, List.count_append, List.count_cons_of_ne (Ne.symm hc),
      List.count_append, List.count_cons_of_ne (Ne.symm hc), hzero, Nat.zero_add]
  rw [depthAfter, hcount _ (by decide) hu.braces.1, hcount _ (by decide) hu.braces.2, depthAfter]

end Quoted

/-- The code of a line with a literal. -/
theorem lineCode_quoted (u x y : List Char) :
    lineCode (x ++ (quoted u ++ y)) =
      if (trimStart x).head? = some '#' then [] else trimStart x ++ (quoted u ++ trimEnd y) := by
  have htrim : trim (x ++ (quoted u ++ y)) = trimStart x ++ (quoted u ++ trimEnd y) := by
    rw [quoted_append, trim, trimStart_append_cons (by decide), ← List.cons_append,
      ← List.append_assoc, trimEnd_append_cons (by decide), quoted_append, List.append_assoc]
    rfl
  have hhead : (trimStart x ++ (quoted u ++ trimEnd y)).head? = some '#' ↔
      (trimStart x).head? = some '#' := by
    cases trimStart x with
    | nil => simp [quoted]
    | cons c cs => rfl
  rw [lineCode, htrim]
  simp only [hhead]

/-- What comes after blanks and a parenthesis is determined by the text. -/
theorem eq_of_gap_append {gap gap' a b : List Char} (hgap : ∀ c ∈ gap, isBlank c)
    (hgap' : ∀ c ∈ gap', isBlank c) (h : gap ++ '(' :: a = gap' ++ '(' :: b) : a = b := by
  have htrim := congrArg trimStart h
  rw [trimStart, trimStart, List.dropWhile_append_of_pos hgap, List.dropWhile_append_of_pos hgap']
    at htrim
  exact (List.cons.inj htrim).2

/-- A literal inside a list is kept apart in a default value only. -/
theorem endsInDefault_of_keepsApart {before name gap first w last after x : List Char}
    (hgap : ∀ c ∈ gap, isBlank c) (hx : x = before ++ (name ++ (gap ++ '(' :: first)))
    (h : Signature.KeepsApart ⟨before, name, first ++ (w ++ last), after⟩ x) : endsInDefault first := by
  subst hx
  cases h with
  | behind gap' between hgap' hsplit =>
    -- The list would have to close before the literal in it.
    have hlist : gap ++ '(' :: first = gap' ++ '(' :: (first ++ (w ++ last) ++ ')' :: between) :=
      List.append_cancel_left (List.append_cancel_left hsplit)
    have hlength := congrArg List.length (eq_of_gap_append hgap hgap' hlist)
    simp only [List.length_append, List.length_cons] at hlength
    omega
  | default gap' first' hgap' hsplit hends =>
    have hlist : gap ++ '(' :: first = gap' ++ '(' :: first' :=
      List.append_cancel_left (List.append_cancel_left hsplit)
    rwa [eq_of_gap_append hgap hgap' hlist]

section Member

variable {className : String} {u v x y : List Char}

/-- A slot that a literal fills without a trace is filled by all others in the same way. -/
theorem member?_fill (code : List Char) (hu : IsInert u) (hv : IsInert v) (hx : ClosesAttributes x)
    {slot : Slot} (hfits : slot.FitsIn x)
    (hapart : (slot.fill x y (quoted u)).declares className →
      (slot.fill x y (quoted u)).KeepsApart x) :
    (readSignature className code (slot.fill x y (quoted u))).member? =
      (readSignature className code (slot.fill x y (quoted v))).member? := by
  rw [member?_readSignature, member?_readSignature]
  cases slot with
  | front between name params after =>
    have hnone : ∀ w, (Slot.fill x y (quoted w) (.front between name params after)).declares className =
        false := by
      intro w
      have hstarts : x ++ ['"'] <+: x ++ (quoted w ++ between) := by
        rw [quoted_append, List.prefix_append_right_inj]
        exact List.prefix_append ['"'] _
      have htype := Signature.isReturnType_eq_false_of_append
        (s := Slot.fill x y (quoted w) (.front between name params after)) (.inr rfl) hx hstarts
      simp [Signature.declares, htype]
    simp only [hnone, Bool.false_eq_true, if_false]
  | behind before name gap params between =>
    have hconst : ∀ w, startsWithWord "const".toList (trimStart (between ++ (quoted w ++ y))) =
        startsWithWord "const".toList (trimStart between) := by
      intro w
      rw [quoted_append, trimStart_append_cons (by decide),
        startsWithWord_append_cons (by decide) (by decide)]
    have hoverload : (Slot.fill x y (quoted u) (.behind before name gap params between)).overload code =
        (Slot.fill x y (quoted v) (.behind before name gap params between)).overload code := by
      simp only [Signature.overload, Signature.isConst, Slot.fill, hconst]
      rfl
    rw [hoverload]
    rfl
  | inside before name gap first last after =>
    by_cases hdeclares :
        (Slot.fill x y (quoted u) (.inside before name gap first last after)).declares className
    · have hdefault := endsInDefault_of_keepsApart hfits.1 hfits.2 (hapart hdeclares)
      have hparams := Param.ofList_append_quoted hdefault hu.text hv.text last
      have hoverload :
          (Slot.fill x y (quoted u) (.inside before name gap first last after)).overload code =
            (Slot.fill x y (quoted v) (.inside before name gap first last after)).overload code := by
        simp only [Signature.overload, Slot.fill, hparams]
        rfl
      rw [hoverload]
      rfl
    · have hother :
          ¬ (Slot.fill x y (quoted v) (.inside before name gap first last after)).declares className :=
        hdeclares
      rw [if_neg hdeclares, if_neg hother]

/-- A line with a literal declares the same member whatever the literal says. -/
theorem member?_readLine_quoted (code : List Char) (hu : IsInert u) (hv : IsInert v)
    (hx : ClosesAttributes x)
    (hapart : ∀ s, signature? (x ++ (quoted u ++ y)) = some s → s.declares className →
      s.KeepsApart x) :
    (readLine className code (x ++ (quoted u ++ y))).member? =
      (readLine className code (x ++ (quoted v ++ y))).member? := by
  obtain ⟨slot?, hfits, hsearch⟩ := slotted_signature? x y
  have hbind : (signature? (x ++ (quoted u ++ y))).bind
        (fun s => (readSignature className code s).member?) =
      (signature? (x ++ (quoted v ++ y))).bind
        (fun s => (readSignature className code s).member?) := by
    have hu' := hsearch u hu.parens
    have hv' := hsearch v hv.parens
    simp only at hu' hv'
    cases slot? with
    | none => rw [hu', hv', Option.map_none, Option.map_none]
    | some slot =>
      rw [Option.map_some] at hu' hv'
      rw [hu', hv', Option.bind_some, Option.bind_some]
      exact member?_fill code hu hv hx (hfits slot rfl) (hapart _ hu')
  rw [member?_readLine, member?_readLine, isDeleted_quoted hu, isDeleted_quoted hv,
    containsWord_operator_quoted hu, containsWord_operator_quoted hv, hbind]

end Member

/-! ## Regions with a literal -/

/-- A line says the same in the code of files in which each name is mentioned as often. -/
theorem readLine_congr {className : String} {code code' : List Char}
    (h : ∀ name, (∀ c ∈ name, isWord c) → occurrences name code = occurrences name code')
    (line : List Char) : readLine className code line = readLine className code' line := by
  have hsignature : ∀ s, signature? line = some s →
      readSignature className code s = readSignature className code' s := by
    intro s hs
    obtain ⟨gap, hfits⟩ := signature?_eq_some hs
    have hname := h s.name fun c hc => hfits.name.isWord_of_mem hc
    simp only [readSignature, Signature.overload, hname]
  rw [readLine, readLine]
  cases hs : signature? line with
  | none => rfl
  | some s => simp only [hsignature s hs]

theorem membersFrom_congr {className : String} {code code' : List Char}
    (h : ∀ name, (∀ c ∈ name, isWord c) → occurrences name code = occurrences name code')
    (depth : Nat) (lines : List (List Char)) :
    membersFrom className code depth lines = membersFrom className code' depth lines := by
  induction lines generalizing depth with
  | nil => rfl
  | cons line lines ih => rw [membersFrom, readLine_congr h, ih, membersFrom]

/-- The depth of braces after the lines of a text. -/
def depthBehind (text : List Char) : Nat :=
  (inclusiveLines (stripComments text)).foldl (fun depth line => depthAfter depth (lineCode line)) 0

/-- The code of the line of a literal in front of it, and behind it. -/
def codeBefore (lines start : List Char) : List Char :=
  trimStart (stripPart (Scan.start.after lines none) start (some '"'))

/-- The code on the rest of a line. -/
def codeBehind (rest : List Char) : List Char :=
  trimEnd ((inclusiveLines (stripComments rest)).headD [])

/-- A region, of which `lines` come before the line of a literal that says `u` and `start` stands on
the line in front of it, has the literal in code, and if it is outside braces neither in an
attribute nor in what declares a parameter. -/
structure Shelters (className : String) (lines start u rest : List Char) : Prop where
  whole : EndsLine lines
  same : '\n' ∉ start
  code : ∃ afterWord, Scan.start.after (lines ++ start) (some '"') = .code afterWord
  attributes : depthBehind lines = 0 → ClosesAttributes (codeBefore lines start)
  apart : depthBehind lines = 0 →
    ∀ s, signature? (codeBefore lines start ++ (quoted u ++ codeBehind rest)) = some s →
      s.declares className → s.KeepsApart (codeBefore lines start)

/-- The lines of a region with a literal: those before, its own one and those behind. -/
theorem Shelters.inclusiveLines_eq {className : String} {lines start u rest : List Char}
    (h : Shelters className lines start u rest) {w : List Char} (hw : IsLiteralText w) :
    inclusiveLines (stripComments (lines ++ start ++ (quoted w ++ rest))) =
      inclusiveLines (stripComments lines) ++
        ((stripPart (Scan.start.after lines none) start (some '"') ++
            (quoted w ++ (inclusiveLines (stripComments rest)).headD [])) ::
          (inclusiveLines (stripComments rest)).tail) := by
  obtain ⟨afterWord, hcode⟩ := h.code
  have hhead : (quoted w ++ rest).head? = some '"' := rfl
  have hlines : stripPart .start lines (start.head?.or (some '"')) = stripComments lines := by
    rw [h.whole.stripPart_eq .start _ none, ← stripFrom_eq_stripPart, stripComments]
  have hends : EndsLine (stripComments lines) := by
    rw [← hlines]
    exact h.whole.stripPart .start _
  have hafter : Scan.start.after lines (start.head?.or (some '"')) = Scan.start.after lines none :=
    h.whole.after_eq .start _ none
  generalize hstart : stripPart (Scan.start.after lines none) start (some '"') = before
  have hline : '\n' ∉ before ++ quoted w := by
    rw [List.mem_append, not_or, ← hstart]
    exact ⟨fun hmem => h.same ((stripPart_sublist _ _ _).subset hmem), hw.newline_notMem_quoted⟩
  have hne : before ++ quoted w ≠ [] := List.append_ne_nil_of_right_ne_nil _ (List.cons_ne_nil _ _)
  rw [stripComments, stripFrom_append, hhead, hcode, hw.stripFrom_quoted, stripPart_append, hlines,
    hafter, hstart, List.append_assoc, inclusiveLines_append hends, ← List.append_assoc before,
    inclusiveLines_append_of_notMem hline hne, List.append_assoc]

/-- A file mentions names as often whatever a literal in it says. -/
theorem Shelters.occurrences_eq {className : String} {lines start u rest : List Char}
    (h : Shelters className lines start u rest) {v w : List Char} (hv : IsInert v) (hw : IsInert w)
    {name : List Char} (hname : ∀ c ∈ name, isWord c) :
    occurrences name (countedCode (lines ++ start ++ (quoted v ++ rest))) =
      occurrences name (countedCode (lines ++ start ++ (quoted w ++ rest))) := by
  simp only [occurrences_countedCode hname, h.inclusiveLines_eq hv.text, h.inclusiveLines_eq hw.text,
    mentionsIn, sumLines_append, sumLines, mentions_quoted hv _ _ hname, mentions_quoted hw _ _ hname]

/-- The table of a region is the same whatever a sheltered literal says, as long as that is
inert. -/
theorem fst_methodsOf_quoted {className : String} {lines start u v rest : List Char}
    (h : Shelters className lines start u rest) (hu : IsInert u) (hv : IsInert v) :
    (methodsOf className (lines ++ start ++ (quoted u ++ rest)) 0
        (lines ++ start ++ (quoted u ++ rest))).1 =
      (methodsOf className (lines ++ start ++ (quoted v ++ rest)) 0
        (lines ++ start ++ (quoted v ++ rest))).1 := by
  rw [fst_methodsOf, fst_methodsOf, membersFrom_congr fun name hname => h.occurrences_eq hu hv hname]
  generalize countedCode (lines ++ start ++ (quoted v ++ rest)) = code
  have hcode : ∀ w, lineCode (stripPart (Scan.start.after lines none) start (some '"') ++
      (quoted w ++ (inclusiveLines (stripComments rest)).headD [])) =
        if (codeBefore lines start).head? = some '#' then []
        else codeBefore lines start ++ (quoted w ++ codeBehind rest) := fun w =>
    lineCode_quoted w _ _
  rw [h.inclusiveLines_eq hu.text, h.inclusiveLines_eq hv.text, membersFrom_append,
    membersFrom_append, membersFrom, membersFrom, hcode, hcode, ← depthBehind]
  by_cases hdirective : (codeBefore lines start).head? = some '#'
  · rw [if_pos hdirective, if_pos hdirective]
  · rw [if_neg hdirective, if_neg hdirective, depthAfter_quoted hu, depthAfter_quoted hv]
    by_cases hdepth : depthBehind lines = 0
    · rw [member?_readLine_quoted code hu hv (h.attributes hdepth) (h.apart hdepth)]
    · rw [if_neg hdepth, if_neg hdepth]

/-- A region with a default value, which may say anything inert. -/
theorem open_quoted :
    let lines := "int size() const;\n".toList
    let start := "  static void open(Path p, std::string s = ".toList
    let u := "a, b".toList
    let v := "c = d; //".toList
    let rest := " + t, int n = 1);\nvoid open(int n);\n".toList
    Shelters "Foo" lines start u rest ∧ IsInert u ∧ IsInert v ∧
      (methodsOf "Foo" (lines ++ start ++ (quoted u ++ rest)) 0
          (lines ++ start ++ (quoted u ++ rest))).1 =
        (methodsOf "Foo" (lines ++ start ++ (quoted v ++ rest)) 0
          (lines ++ start ++ (quoted v ++ rest))).1 := by
  intro lines start u v rest
  have hu : IsInert u :=
    ⟨isLiteralText_of_forall (by decide), by decide, by decide, by decide, by decide⟩
  have hv : IsInert v :=
    ⟨isLiteralText_of_forall (by decide), by decide, by decide, by decide, by decide⟩
  have hsignature : signature? (codeBefore lines start ++ (quoted u ++ codeBehind rest)) =
      some ⟨"static void ".toList, "open".toList,
        "Path p, std::string s = \"a, b\" + t, int n = 1".toList, ";".toList⟩ := rfl
  have hshelters : Shelters "Foo" lines start u rest := by
    refine ⟨by decide, by decide, ⟨false, rfl⟩, fun _ => by decide, fun _ s hs _ => ?_⟩
    obtain rfl := Option.some.inj (hsignature.symm.trans hs)
    exact .default [] "Path p, std::string s = ".toList nofun (by decide) (by decide +kernel)
  exact ⟨hshelters, hu, hv, fst_methodsOf_quoted hshelters hu hv⟩

/-- A region with one member, which has a default value. -/
def openRegion (w : List Char) : List Char :=
  "void open(std::string s = ".toList ++ (quoted w ++ ");\n".toList)

/-- The member is lost if its default value says `operator`. -/
theorem open_lost :
    let u := "a".toList
    let v := "operator".toList
    Scan.start.after "void open(std::string s = ".toList (some '"') = .code false ∧
      (∀ c ∈ v, c ≠ '\\' ∧ c ≠ '"' ∧ c ≠ '\n') ∧
      (methodsOf "Foo" (openRegion u) 0 (openRegion u)).1.keys = ["open"] ∧
      (methodsOf "Foo" (openRegion v) 0 (openRegion v)).1.keys = [] := by
  exact ⟨rfl, by decide, rfl, rfl⟩

end Header

end ChaiBind
