import ChaiBind.Proofs.Header.EndingMarkers

/-!
# Enumerations of a header with other line endings

A declaration of an enumeration may go on over many lines, and is read over their endings as
over any blanks and comments. With a carriage return before each newline the declaration is
the same, with other line endings in its body (`enumDeclaration?_withReturns`). Its enumerators
are the same but for the line endings inside them, of which a comment may take the carriage
return away (`map_valueLineFeeds_enumerators`).
-/

namespace ChaiBind

open Text

/-- A value with a newline for each carriage return and newline. -/
def valueLineFeeds (value : String) : String := String.ofList (lineFeeds value.toList)

/-- The enumeration with a newline for each carriage return and newline in its values. -/
def Enumeration.withLineFeeds (e : Enumeration) : Enumeration :=
  { e with values := e.values.map valueLineFeeds }

namespace Text

/-! ## Trivia -/

theorem skipTriviaFrom_withReturns {s : Scan} (hs : ∀ quote, s ≠ .escape quote) (cs : List Char) :
    skipTriviaFrom s (withReturns cs) = withReturns (skipTriviaFrom s cs) := by
  induction cs generalizing s with
  | nil => rfl
  | cons c cs ih =>
    by_cases hc : c = '\n'
    · subst hc
      have hblank : isBlank '\r' = true ∧ isBlank '\n' = true := ⟨rfl, rfl⟩
      have hnext : ∀ quote, (s.step '\n' cs.head?).2 ≠ .escape quote := fun quote h =>
        absurd (Scan.eq_of_step_eq_escape h).1 (by decide)
      simp only [withReturns_newline, skipTriviaFrom, hblank, Bool.or_true, if_true,
        List.head?_cons, Scan.step_return hs _ cs.head?, ih hnext]
    · rw [withReturns_cons hc, skipTriviaFrom, skipTriviaFrom, Scan.step_head?_withReturns]
      dsimp only
      split
      · rename_i hskipped
        refine ih fun quote h => ?_
        -- What starts an escape is neither blank nor in a comment.
        obtain ⟨rfl, hlayer⟩ := Scan.eq_of_step_eq_escape h
        rw [hlayer] at hskipped
        exact absurd hskipped (by decide)
      · exact (withReturns_cons hc cs).symm

theorem skipTrivia_withReturns (cs : List Char) :
    skipTrivia (withReturns cs) = withReturns (skipTrivia cs) :=
  skipTriviaFrom_withReturns (by simp [Scan.start]) cs

/-! ## Pieces -/

theorem forall₂_consHead {c : Char} (hc : c ≠ '\r') {ps qs : List (List Char)}
    (h : List.Forall₂ HasReturns ps qs) :
    List.Forall₂ HasReturns (consHead c ps) (consHead c qs) := by
  cases h with
  | nil => exact .cons (.cons hc .nil) .nil
  | cons hp hps => exact .cons (.cons hc hp) hps

theorem forall₂_consHead_return {ps qs : List (List Char)} (h : List.Forall₂ HasReturns ps qs) :
    List.Forall₂ HasReturns (consHead '\n' ps) (consHead '\r' (consHead '\n' qs)) := by
  cases h with
  | nil => exact .cons (.newline .nil) .nil
  | cons hp hps => exact .cons (.newline hp) hps

/-- The pieces of a text at top level are the same but for line endings inside them. -/
theorem forall₂_splitTopLevelFrom {sep : Char} (hsep : sep ≠ '\n' ∧ sep ≠ '\r') {s : Nesting}
    (hs : s.WellQuoted) {cs ds : List Char} (h : HasReturns cs ds) :
    List.Forall₂ HasReturns (splitTopLevelFrom sep s cs) (splitTopLevelFrom sep s ds) := by
  induction h generalizing s with
  | nil => exact .cons .nil .nil
  | cons hc _ ih =>
    rw [splitTopLevelFrom_cons, splitTopLevelFrom_cons]
    split
    · exact .cons .nil (ih (hs.step sep _))
    · exact forall₂_consHead hc (ih (hs.step sep _))
  | newline _ ih =>
    obtain ⟨hreturn, hstep⟩ := hs.step_blank (d := '\r') rfl hsep.2
    have hnewline := (hs.step_blank (d := '\n') rfl hsep.1).1
    rw [splitTopLevelFrom_cons, splitTopLevelFrom_cons, splitTopLevelFrom_cons, hreturn, hstep,
      hnewline]
    exact forall₂_consHead_return (ih (hs.step sep '\n'))

theorem HasReturns.beforeAssignment {cs ds : List Char} (h : HasReturns cs ds) :
    HasReturns (beforeAssignment cs) (beforeAssignment ds) := by
  have hsep : '=' ≠ '\n' ∧ '=' ≠ '\r' := by decide
  have hpieces := forall₂_splitTopLevelFrom (s := .start) hsep trivial h
  rw [Text.beforeAssignment, Text.beforeAssignment, splitTopLevel, splitTopLevel]
  generalize splitTopLevelFrom '=' Nesting.start cs = ps at hpieces
  generalize splitTopLevelFrom '=' Nesting.start ds = qs at hpieces
  cases hpieces with
  | nil => exact .nil
  | cons hp _ => exact hp

end Text

namespace Header

/-! ## Heads and bodies -/

theorem afterAttribute?_eq_bind (cs : List Char) :
    afterAttribute? cs = ("[[".toList.isPrefixOf? cs).bind fun rest =>
      "]]".toList.isPrefixOf? (rest.dropWhile (· ≠ ']')) := by
  cases hcs : "[[".toList.isPrefixOf? cs with
  | none =>
    unfold afterAttribute?
    split
    · cases hcs
    · rfl
  | some rest =>
    obtain rfl := List.isPrefixOf?_eq_some_iff_append_eq.1 hcs
    show afterAttribute? ('[' :: '[' :: rest) = _
    rw [afterAttribute?, Option.bind_some]
    cases hrest : "]]".toList.isPrefixOf? (rest.dropWhile (· ≠ ']')) with
    | some after =>
      rw [← List.isPrefixOf?_eq_some_iff_append_eq.1 hrest]
      rfl
    | none =>
      split
      · rename_i heq
        rw [heq] at hrest
        cases hrest
      · rfl

theorem afterAttribute?_withReturns (cs : List Char) :
    afterAttribute? (withReturns cs) = (afterAttribute? cs).map withReturns := by
  have hclose : decide ('\r' ≠ ']') = decide ('\n' ≠ ']') := by decide
  rw [afterAttribute?_eq_bind, afterAttribute?_eq_bind, isPrefixOf?_withReturns (by decide)]
  cases "[[".toList.isPrefixOf? cs with
  | none => rfl
  | some rest =>
    rw [Option.map_some, Option.bind_some, Option.bind_some,
      dropWhile_withReturns (p := fun c => decide (c ≠ ']')) hclose,
      isPrefixOf?_withReturns (by decide)]

theorem skipAttributesAndBlanks_withReturns (n : Nat) (cs : List Char) :
    skipAttributesAndBlanks n (withReturns cs) = withReturns (skipAttributesAndBlanks n cs) := by
  induction n generalizing cs with
  | zero => rfl
  | succ n ih =>
    rw [skipAttributesAndBlanks, skipAttributesAndBlanks, afterAttribute?_withReturns]
    cases afterAttribute? cs with
    | none => rfl
    | some rest => simp only [Option.map_some, trimStart_withReturns, ih]

/-- More steps than characters skip nothing more. -/
theorem skipAttributesAndBlanks_add {n : Nat} {cs : List Char} (hn : cs.length ≤ n) (m : Nat) :
    skipAttributesAndBlanks (n + m) cs = skipAttributesAndBlanks n cs := by
  induction n generalizing cs with
  | zero =>
    obtain rfl : cs = [] := List.length_eq_zero_iff.1 (Nat.le_zero.1 hn)
    exact skipAttributesAndBlanks_of_none rfl _
  | succ n ih =>
    cases hcs : afterAttribute? cs with
    | none => rw [skipAttributesAndBlanks_of_none hcs, skipAttributesAndBlanks_of_none hcs]
    | some rest =>
      have hlength : (trimStart rest).length ≤ n := by
        have hle := (List.dropWhile_suffix isBlank (l := rest)).length_le
        have hlt := length_lt_of_afterAttribute? hcs
        rw [trimStart]
        omega
      rw [Nat.succ_add, skipAttributesAndBlanks, skipAttributesAndBlanks, hcs]
      exact ih hlength

theorem enumName?_withReturns (cs : List Char) :
    enumName? (withReturns cs) = (enumName? cs).map fun p => (p.1, withReturns p.2) := by
  have hlength : (trimStart cs).length ≤ cs.length := (List.dropWhile_suffix isBlank).length_le
  rw [enumName?, enumName?, trimStart_withReturns, skipAttributesAndBlanks_withReturns,
    length_withReturns, skipAttributesAndBlanks_add hlength, takeIdentifier_withReturns,
    Option.map_map, Option.map_map]
  simp only [Function.comp_def, trimStart_withReturns]

theorem afterScopeKeyword?_withReturns (cs : List Char) :
    afterScopeKeyword? (withReturns cs) = (afterScopeKeyword? cs).map withReturns := by
  have hblank : isBlank '\r' = isBlank '\n' := rfl
  rw [afterScopeKeyword?_eq, afterScopeKeyword?_eq, any_head?_withReturns hblank,
    trimStart_withReturns, takeIdentifier_withReturns]
  split
  · cases takeIdentifier (trimStart cs) with
    | none => rfl
    | some p =>
      simp only [Option.map_some, Option.bind_some]
      split <;> rfl
  · rfl

theorem enumHead?_withReturns (cs : List Char) :
    enumHead? (withReturns cs) =
      (enumHead? cs).map fun h => { h with rest := withReturns h.rest } := by
  rw [enumHead?, enumHead?, afterWord?_withReturns (by decide)]
  cases afterWord? "enum".toList cs with
  | none => rfl
  | some rest =>
    have hscoped : (afterScopeKeyword? (withReturns rest)).bind enumName? =
        ((afterScopeKeyword? rest).bind enumName?).map fun p => (p.1, withReturns p.2) := by
      rw [afterScopeKeyword?_withReturns]
      cases afterScopeKeyword? rest with
      | none => rfl
      | some r => exact enumName?_withReturns r
    simp only [Option.map_some, Option.bind_some, hscoped, enumName?_withReturns]
    cases (afterScopeKeyword? rest).bind enumName? with
    | some p => rfl
    | none => cases enumName? rest <;> rfl

/-- A character of an underlying type. -/
def isInType (c : Char) : Bool := c ≠ '{' && c ≠ ';'

theorem afterUnderlyingType?_colon (cs : List Char) :
    afterUnderlyingType? (':' :: cs) =
      if cs.head?.any isInType then some (cs.dropWhile isInType) else none := by
  cases cs with
  | nil => rfl
  | cons c cs =>
    have hin : (c = '{' || c = ';') = !isInType c := by simp [isInType]
    rw [afterUnderlyingType?, List.head?_cons, Option.any_some]
    by_cases hc : isInType c
    · rw [if_neg (by simp [hin, hc]), if_pos hc]
      rfl
    · rw [if_pos (by simp [hin, hc]), if_neg hc]

theorem enumOpening?_withReturns (cs : List Char) :
    enumOpening? (withReturns cs) = (enumOpening? cs).map withReturns := by
  have htype : isInType '\r' = isInType '\n' := rfl
  have hopen : ∀ ds, ['{'].isPrefixOf? (withReturns ds) = (['{'].isPrefixOf? ds).map withReturns :=
    isPrefixOf?_withReturns (by decide)
  cases cs with
  | nil => rfl
  | cons c cs =>
    by_cases hcolon : c = ':'
    · subst hcolon
      rw [withReturns_cons (by decide), enumOpening?, enumOpening?, afterUnderlyingType?_colon,
        afterUnderlyingType?_colon, any_head?_withReturns htype, dropWhile_withReturns htype]
      split
      · exact hopen _
      · rfl
    · have hplain : ∀ d ds, d ≠ ':' → enumOpening? (d :: ds) = ['{'].isPrefixOf? (d :: ds) := by
        intro d ds hd
        rw [enumOpening?, afterUnderlyingType?]
        · rfl
        · exact fun _ h => hd (List.cons.inj h).1
      rw [hplain c cs hcolon, ← hopen]
      by_cases hc : c = '\n'
      · subst hc
        exact hplain '\r' _ (by decide)
      · rw [withReturns_cons hc]
        exact hplain c _ hcolon

theorem closedBody?_withReturns (cs : List Char) :
    closedBody? (withReturns cs) = (closedBody? cs).map withReturns := by
  have hclose : decide ('\r' ≠ '}') = decide ('\n' ≠ '}') := by decide
  have hsemicolon : ';' ≠ '\n' ∧ ';' ≠ '\r' := by decide
  rw [closedBody?, closedBody?, dropWhile_withReturns (p := fun c => decide (c ≠ '}')) hclose,
    takeWhile_withReturns (p := fun c => decide (c ≠ '}')) hclose,
    isPrefixOf?_withReturns (by decide)]
  cases ['}'].isPrefixOf? (cs.dropWhile (· ≠ '}')) with
  | none => rfl
  | some after =>
    simp only [Option.map_some, Option.bind_some, trimStart_withReturns,
      head?_withReturns_eq_some hsemicolon]
    split <;> rfl

theorem enumDeclaration?_withReturns (cs : List Char) :
    enumDeclaration? (withReturns cs) =
      (enumDeclaration? cs).map fun d => { d with body := withReturns d.body } := by
  rw [enumDeclaration?_eq, enumDeclaration?_eq, enumHead?_withReturns]
  cases enumHead? cs with
  | none => rfl
  | some h =>
    simp only [Option.map_some, Option.bind_some, enumBody?, enumOpening?_withReturns]
    cases enumOpening? h.rest with
    | none => rfl
    | some b =>
      simp only [Option.map_some, Option.bind_some, closedBody?_withReturns]
      cases closedBody? b <;> rfl

/-! ## Where the body stands -/

theorem afterWord?_isSuffix {w cs r : List Char} (h : afterWord? w cs = some r) : r <:+ cs :=
  ⟨w, List.isPrefixOf?_eq_some_iff_append_eq.1 (Option.filter_eq_some_iff.1 h).1⟩

theorem isSuffix_of_takeIdentifier {cs : List Char} {p : List Char × List Char}
    (h : takeIdentifier cs = some p) : p.2 <:+ cs := ⟨p.1, append_of_takeIdentifier h⟩

theorem trimStart_isSuffix (cs : List Char) : trimStart cs <:+ cs := List.dropWhile_suffix isBlank

theorem skipAttributesAndBlanks_isSuffix (n : Nat) (cs : List Char) :
    skipAttributesAndBlanks n cs <:+ cs := by
  induction n generalizing cs with
  | zero => exact List.suffix_refl cs
  | succ n ih =>
    cases hcs : afterAttribute? cs with
    | none => exact ⟨[], skipAttributesAndBlanks_of_none hcs (n + 1)⟩
    | some rest =>
      rw [skipAttributesAndBlanks, hcs]
      exact (ih _).trans ((trimStart_isSuffix rest).trans (isSuffix_of_afterAttribute? hcs))

theorem enumName?_isSuffix {cs : List Char} {p : List Char × List Char}
    (h : enumName? cs = some p) : p.2 <:+ cs := by
  obtain ⟨q, hq, rfl⟩ := Option.map_eq_some_iff.1 h
  exact (trimStart_isSuffix q.2).trans <| (isSuffix_of_takeIdentifier hq).trans <|
    (skipAttributesAndBlanks_isSuffix _ _).trans (trimStart_isSuffix cs)

theorem afterScopeKeyword?_isSuffix {cs r : List Char} (h : afterScopeKeyword? cs = some r) :
    r <:+ cs := by
  rw [afterScopeKeyword?_eq, Option.ite_none_right_eq_some] at h
  obtain ⟨p, hp, hr⟩ := Option.bind_eq_some_iff.1 h.2
  obtain ⟨-, hr⟩ := Option.ite_none_right_eq_some.1 hr
  obtain rfl := Option.some.inj hr
  exact (isSuffix_of_takeIdentifier hp).trans (trimStart_isSuffix cs)

theorem enumHead?_isSuffix {cs : List Char} {h : EnumHead} (hhead : enumHead? cs = some h) :
    h.rest <:+ cs := by
  obtain ⟨rest, hword, hhead⟩ := Option.bind_eq_some_iff.1 hhead
  refine List.IsSuffix.trans ?_ (afterWord?_isSuffix hword)
  cases hscoped : (afterScopeKeyword? rest).bind enumName? with
  | some p =>
    rw [hscoped] at hhead
    obtain rfl := Option.some.inj hhead
    obtain ⟨r, hkeyword, hname⟩ := Option.bind_eq_some_iff.1 hscoped
    exact (enumName?_isSuffix hname).trans (afterScopeKeyword?_isSuffix hkeyword)
  | none =>
    rw [hscoped] at hhead
    obtain ⟨p, hname, rfl⟩ := Option.map_eq_some_iff.1 hhead
    exact enumName?_isSuffix hname

theorem enumOpening?_isSuffix {cs b : List Char} (h : enumOpening? cs = some b) : b <:+ cs := by
  obtain ⟨r, htype, hb⟩ := Option.bind_eq_some_iff.1 h
  have hopened : b <:+ r := ⟨['{'], List.isPrefixOf?_eq_some_iff_append_eq.1 hb⟩
  refine hopened.trans ?_
  unfold afterUnderlyingType? at htype
  split at htype
  · rename_i ty
    cases ty with
    | nil => cases htype
    | cons c ty =>
      obtain ⟨-, hr⟩ := Option.ite_none_left_eq_some.1 htype
      obtain rfl := Option.some.inj hr
      exact (List.dropWhile_suffix _).trans (List.suffix_cons ':' (c :: ty))
  · obtain rfl := Option.some.inj htype
    exact List.suffix_refl _

/-- The body of an enumeration is a part of the text. -/
theorem body_isInfix {cs : List Char} {d : EnumDeclaration} (h : enumDeclaration? cs = some d) :
    d.body <:+: cs := by
  rw [enumDeclaration?_eq] at h
  obtain ⟨head, hhead, hd⟩ := Option.bind_eq_some_iff.1 h
  obtain ⟨body, hbody, rfl⟩ := Option.map_eq_some_iff.1 hd
  obtain ⟨b, hb, hclosed⟩ := Option.bind_eq_some_iff.1 hbody
  obtain ⟨after, rfl, -, -⟩ := closedBody?_eq_some_iff.1 hclosed
  have hsuffix := (enumOpening?_isSuffix hb).trans (enumHead?_isSuffix hhead)
  exact (List.prefix_append body _).isInfix.trans hsuffix.isInfix

/-! ## Enumerators -/

theorem map_valueLineFeeds {ps qs : List (List Char)} (h : List.Forall₂ HasReturns ps qs) :
    (((qs.map fun v => trim (beforeAssignment v)).filter (· ≠ [])).map String.ofList).map
        valueLineFeeds =
      ((ps.map fun v => trim (beforeAssignment v)).filter (· ≠ [])).map String.ofList := by
  induction h with
  | nil => rfl
  | @cons p q ps qs hpq _ ih =>
    have hvalue : HasReturns (trim (beforeAssignment p)) (trim (beforeAssignment q)) :=
      (HasReturns.beforeAssignment hpq).trim
    rw [List.map_cons, List.map_cons, List.filter_cons, List.filter_cons]
    by_cases hnil : trim (beforeAssignment p) = []
    · have hnil' := hvalue.eq_nil_iff.2 hnil
      rw [if_neg (by simp [hnil']), if_neg (by simp [hnil]), ih]
    · have hnil' := mt hvalue.eq_nil_iff.1 hnil
      rw [if_pos (by simp [hnil']), if_pos (by simp [hnil]), List.map_cons,
        List.map_cons, List.map_cons, ih, valueLineFeeds, String.toList_ofList, hvalue.lineFeeds_eq]

theorem map_valueLineFeeds_enumerators {cs : List Char} (hreturn : '\r' ∉ cs)
    (hsplice : ¬ ['\\', '\n'] <:+: cs) :
    (enumerators (withReturns cs)).map valueLineFeeds = enumerators cs :=
  map_valueLineFeeds <| forall₂_splitTopLevelFrom (s := .start) (by decide) trivial <|
    hasReturns_stripComments hreturn hsplice

/-- The carriage return at the end of the comment is part of the comment. -/
example : enumerators (withReturns "A // b\n C\n D".toList) = ["A \n C\r\n D"] := by decide +kernel

section

variable {cs : List Char} (hreturn : '\r' ∉ cs) (hsplice : ¬ ['\\', '\n'] <:+: cs)
include hreturn hsplice

theorem readEnumeration?_withReturns :
    (readEnumeration? (withReturns cs)).map (fun e => (e.1, e.2.1, e.2.2.map valueLineFeeds)) =
      readEnumeration? cs := by
  rw [readEnumeration?, readEnumeration?, skipTrivia_withReturns, enumDeclaration?_withReturns,
    Option.map_map, Option.map_map]
  refine Option.map_congr fun d hd => ?_
  have hbody : d.body <:+: cs := (body_isInfix hd).trans (skipTriviaFrom_isSuffix _ cs).isInfix
  have hvalues := map_valueLineFeeds_enumerators (fun h => hreturn (hbody.subset h))
    (fun h => hsplice (h.trans hbody))
  simp only [Function.comp_apply, hvalues]

/-! ## The enumerations of a header -/

variable (path includePath : String) (scope : Option String)

theorem map_withLineFeeds_enumerationsOf :
    (enumerationsOf ⟨path, includePath, String.ofList (withReturns cs)⟩ scope).1.map
        Enumeration.withLineFeeds =
      (enumerationsOf ⟨path, includePath, String.ofList cs⟩ scope).1 := by
  rw [fst_enumerationsOf, fst_enumerationsOf, Marker.sites_withReturns, List.filterMap_map,
    List.map_filterMap]
  refine List.filterMap_congr fun s hs => ?_
  obtain ⟨pre, text, hcs, -⟩ := Marker.exists_of_mem_sites hs
  have hrest : s.rest <:+: cs := ⟨pre ++ text, [], by simp [hcs]⟩
  have hread := readEnumeration?_withReturns (fun h => hreturn (hrest.subset h))
    (fun h => hsplice (h.trans hrest))
  rw [← hread, Option.map_map]
  simp only [Function.comp_apply, Marker.Site.move, ownerName_withReturns, Option.map_map]
  rfl

end

theorem snd_enumerationsOf_withReturns (path includePath : String) (scope : Option String)
    (cs : List Char) :
    (enumerationsOf ⟨path, includePath, String.ofList (withReturns cs)⟩ scope).2.map
        Diagnostic.apartFromOffset =
      (enumerationsOf ⟨path, includePath, String.ofList cs⟩ scope).2.map
        Diagnostic.apartFromOffset := by
  have hread : ∀ rest, (readEnumeration? (withReturns rest)).isSome =
      (readEnumeration? rest).isSome := by
    intro rest
    rw [readEnumeration?, readEnumeration?, skipTrivia_withReturns, enumDeclaration?_withReturns]
    simp only [Option.isSome_map]
  rw [snd_enumerationsOf, snd_enumerationsOf, Marker.sites_withReturns, List.filterMap_map,
    List.map_filterMap, List.map_filterMap]
  refine List.filterMap_congr fun s hs => ?_
  have hplace := Finding.enumerationMissing.apartFromOffset_reportAt
    (Marker.place_locate_withReturns hs)
  simp only [Function.comp_apply, Marker.Site.move, hread] at hplace ⊢
  split
  · rfl
  · exact congrArg some hplace

end Header

end ChaiBind
