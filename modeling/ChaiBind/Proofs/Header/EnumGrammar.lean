import ChaiBind.Proofs.Header.EnumeratorGrammar
import ChaiBind.Proofs.Header.LineEnds

/-!
# Marked enumerations part by part

An `EnumText` is a declaration of an enumeration with keywords, attributes, a name, an underlying
type and a list of enumerators. It is read as these parts (`enumDeclaration?_text`), so that behind
a marker its values are the names of its enumerators, unless angles among the operators hide a comma
or uncover one (`enumerationsOf_enumText`).
-/

namespace ChaiBind.Header

open Text

/-! ## Attributes -/

/-- Attributes in their brackets, each with what stands behind it. -/
def attributeText (attributes : List (List Char × List Char)) : List Char :=
  attributes.flatMap fun a => '[' :: '[' :: (a.1 ++ ']' :: ']' :: a.2)

theorem attributeText_cons (a : List Char × List Char) (attributes : List (List Char × List Char))
    (v : List Char) :
    attributeText (a :: attributes) ++ v =
      '[' :: '[' :: (a.1 ++ ']' :: ']' :: (a.2 ++ (attributeText attributes ++ v))) := by
  simp [attributeText]

theorem any_head?_attributeText {p : Char → Bool} (hp : p '[' = false)
    (attributes : List (List Char × List Char)) {v : List Char} (hv : v.head?.any p = false) :
    (attributeText attributes ++ v).head?.any p = false := by
  cases attributes with
  | nil => exact hv
  | cons a attributes =>
    rw [attributeText_cons]
    exact hp

theorem length_le_length_attributeText (attributes : List (List Char × List Char)) :
    attributes.length ≤ (attributeText attributes).length := by
  induction attributes with
  | nil => exact Nat.le_refl 0
  | cons a attributes ih =>
    have htext := attributeText_cons a attributes []
    rw [List.append_nil, List.append_nil] at htext
    rw [htext]
    simp only [List.length_cons, List.length_append]
    omega

theorem skipAttributesAndBlanks_attributeText {attributes : List (List Char × List Char)}
    (h : ∀ a ∈ attributes, ']' ∉ a.1 ∧ ∀ c ∈ a.2, isBlank c) {v : List Char}
    (hblank : v.head?.any isBlank = false) (hnone : afterAttribute? v = none) {n : Nat}
    (hn : attributes.length ≤ n) : skipAttributesAndBlanks n (attributeText attributes ++ v) = v := by
  induction attributes generalizing n with
  | nil => exact skipAttributesAndBlanks_of_none hnone n
  | cons a attributes ih =>
    obtain ⟨⟨hclose, hblanks⟩, hrest⟩ := List.forall_mem_cons.1 h
    obtain ⟨n, rfl⟩ := Nat.exists_eq_add_of_lt (Nat.lt_of_lt_of_le (Nat.succ_pos _) hn)
    have hhead := any_head?_attributeText (p := isBlank) (by decide) attributes hblank
    rw [Nat.zero_add, attributeText_cons, skipAttributesAndBlanks, afterAttribute?_eq hclose]
    dsimp only
    rw [trimStart_blanks_append hblanks hhead]
    exact ih hrest (by simpa using hn)

/-! ## Declarations -/

/-- A declaration of an enumeration. -/
structure EnumText where
  /-- The keyword of a scoped enumeration and the blanks before it. -/
  scope : Option (List Char × List Char)
  gap : List Char
  /-- Attributes without brackets, each with the blanks behind it. -/
  attributes : List (List Char × List Char)
  name : List Char
  behind : List Char
  /-- What stands between the colon and the brace. -/
  type : Option (List Char)
  list : EnumeratorList
  /-- The blanks before the semicolon. -/
  close : List Char
deriving DecidableEq, Repr

namespace EnumText

/-- What follows the name and the blanks behind it. -/
def body (e : EnumText) : List Char :=
  e.type.elim [] (':' :: ·) ++ '\x7b' :: (e.list.text ++ '\x7d' :: (e.close ++ [';']))

/-- What follows the keywords. -/
def named (e : EnumText) : List Char :=
  e.gap ++ (attributeText e.attributes ++ (e.name ++ (e.behind ++ e.body)))

/-- The declaration as it is written. -/
def text (e : EnumText) : List Char :=
  "enum".toList ++ (e.scope.elim [] (fun s => s.1 ++ s.2) ++ e.named)

/-- The parts are such that they are read as these parts. -/
structure WellFormed (e : EnumText) : Prop where
  scope : ∀ s ∈ e.scope, s.1 ≠ [] ∧ (∀ c ∈ s.1, isBlank c) ∧
    (s.2 = "class".toList ∨ s.2 = "struct".toList)
  gap : ∀ c ∈ e.gap, isBlank c
  apart : e.attributes = [] → e.gap ≠ []
  attributes : ∀ a ∈ e.attributes, ']' ∉ a.1 ∧ ∀ c ∈ a.2, isBlank c
  name : IsIdentifier e.name
  behind : ∀ c ∈ e.behind, isBlank c
  type : ∀ t ∈ e.type, t ≠ [] ∧ StaysInType t
  list : e.list.WellFormed
  close : ∀ c ∈ e.close, isBlank c

instance (e : EnumText) : Decidable e.WellFormed :=
  decidable_of_iff
    ((∀ s ∈ e.scope, s.1 ≠ [] ∧ (∀ c ∈ s.1, isBlank c) ∧
        (s.2 = "class".toList ∨ s.2 = "struct".toList)) ∧
      (∀ c ∈ e.gap, isBlank c) ∧ (e.attributes = [] → e.gap ≠ []) ∧
      (∀ a ∈ e.attributes, ']' ∉ a.1 ∧ ∀ c ∈ a.2, isBlank c) ∧ IsIdentifier e.name ∧
      (∀ c ∈ e.behind, isBlank c) ∧ (∀ t ∈ e.type, t ≠ [] ∧ StaysInType t) ∧ e.list.WellFormed ∧
      ∀ c ∈ e.close, isBlank c)
    ⟨fun ⟨h₁, h₂, h₃, h₄, h₅, h₆, h₇, h₈, h₉⟩ => ⟨h₁, h₂, h₃, h₄, h₅, h₆, h₇, h₈, h₉⟩,
      fun h => ⟨h.scope, h.gap, h.apart, h.attributes, h.name, h.behind, h.type, h.list, h.close⟩⟩

theorem startsBody_body (e : EnumText) : StartsBody e.body := by
  rw [body]
  cases e.type with
  | none => exact .inr rfl
  | some t => exact .inl rfl

theorem any_head?_body {p : Char → Bool} (hp : p ':' = false ∧ p '\x7b' = false) (e : EnumText) :
    e.body.head?.any p = false := by
  rcases e.startsBody_body with hstart | hstart
  · rw [hstart]
    exact hp.1
  · rw [hstart]
    exact hp.2

variable {e : EnumText} (h : e.WellFormed)
include h

/-! ### The body -/

theorem trimStart_behind : trimStart (e.behind ++ e.body) = e.body :=
  trimStart_blanks_append h.behind (any_head?_body ⟨by decide, by decide⟩ e)

theorem any_head?_behind : (e.behind ++ e.body).head?.any isWord = false := by
  have hbody := any_head?_body (p := isWord) ⟨by decide, by decide⟩ e
  cases hbehind : e.behind with
  | nil => exact hbody
  | cons c cs => exact isWord_eq_false_of_isBlank (h.behind c (hbehind ▸ List.mem_cons_self))

theorem enumBody?_body : enumBody? e.body = some e.list.text := by
  have hclosed : closedBody? (e.list.text ++ '\x7d' :: (e.close ++ [';'])) = some e.list.text := by
    refine closedBody?_eq_some_iff.2 ⟨_, rfl, EnumeratorList.brace_notMem_text h.list, ?_⟩
    rw [trimStart_blanks_append h.close (by decide)]
    rfl
  have hopening : enumOpening? e.body = some (e.list.text ++ '\x7d' :: (e.close ++ [';'])) := by
    rw [body]
    cases htype : e.type with
    | none => rfl
    | some t =>
      obtain ⟨hne, hstays⟩ := h.type t htype
      exact enumOpening?_underlying hne hstays _
  rw [enumBody?, hopening, Option.bind_some, hclosed]

/-! ### The head -/

theorem any_head?_named : e.named.head?.any isWord = false := by
  rw [named]
  cases hgap : e.gap with
  | cons c cs => exact isWord_eq_false_of_isBlank (h.gap c (hgap ▸ List.mem_cons_self))
  | nil =>
    cases hattributes : e.attributes with
    | nil => exact absurd hgap (h.apart hattributes)
    | cons a attributes =>
      rw [List.nil_append, attributeText_cons]
      rfl

theorem trimStart_named :
    trimStart e.named = attributeText e.attributes ++ (e.name ++ (e.behind ++ e.body)) := by
  refine trimStart_blanks_append h.gap (any_head?_attributeText (by decide) e.attributes ?_)
  exact any_head?_identifier h.name (fun c hc => isBlank_eq_false_of_isWord hc) _

theorem takeIdentifier_name :
    takeIdentifier (e.name ++ (e.behind ++ e.body)) = some (e.name, e.behind ++ e.body) :=
  takeIdentifier_append h.name (any_head?_behind h)

theorem enumName?_named : enumName? e.named = some (e.name, e.body) := by
  have hlength : e.attributes.length ≤ e.named.length := by
    have hle := length_le_length_attributeText e.attributes
    simp only [named, List.length_append]
    omega
  have hhead : (e.name ++ (e.behind ++ e.body)).head?.any isBlank = false :=
    any_head?_identifier h.name (fun c hc => isBlank_eq_false_of_isWord hc) _
  have hskip := skipAttributesAndBlanks_attributeText h.attributes hhead
    (afterAttribute?_of_takeIdentifier (takeIdentifier_name h)) hlength
  rw [enumName?, trimStart_named h, hskip, takeIdentifier_name h, Option.map_some,
    trimStart_behind h]

/-- The name of an enumeration without a keyword is not taken for one, since the body follows it. -/
theorem afterScopeKeyword?_named : (afterScopeKeyword? e.named).bind enumName? = none := by
  have hbody : enumName? (e.behind ++ e.body) = none :=
    enumName?_of_startsBody ((trimStart_behind h).symm ▸ e.startsBody_body)
  rw [afterScopeKeyword?_eq, trimStart_named h]
  split
  · cases e.attributes with
    | nil =>
      rw [attributeText, List.flatMap_nil, List.nil_append, takeIdentifier_name h, Option.bind_some]
      split
      · exact hbody
      · rfl
    | cons a attributes =>
      rw [attributeText_cons]
      rfl
  · rfl

theorem enumHead?_text : enumHead? e.text = some ⟨e.scope.isSome, e.name, e.body⟩ := by
  have henum : IsIdentifier "enum".toList := by decide
  have hword : ∀ rest : List Char, rest.head?.any isWord = false →
      afterWord? "enum".toList ("enum".toList ++ rest) = some rest := by
    intro rest hrest
    rw [afterWord?_eq henum, takeIdentifier_append henum hrest, Option.bind_some, if_pos rfl]
  rw [enumHead?, text]
  cases hscope : e.scope with
  | none =>
    rw [Option.elim_none, List.nil_append, hword _ (any_head?_named h), Option.bind_some,
      afterScopeKeyword?_named h, enumName?_named h]
    rfl
  | some s =>
    obtain ⟨hne, hblanks, hkeyword⟩ := h.scope s hscope
    have hidentifier : IsIdentifier s.2 := by
      rcases hkeyword with hs | hs <;> rw [hs] <;> decide
    obtain ⟨d, ds, hd⟩ := List.exists_cons_of_ne_nil hne
    have hblank : isBlank d := hblanks d (hd ▸ List.mem_cons_self)
    have hfirst : ((s.1 ++ s.2) ++ e.named).head? = some d := by rw [hd]; rfl
    have htrim : trimStart ((s.1 ++ s.2) ++ e.named) = s.2 ++ e.named := by
      rw [List.append_assoc]
      exact trimStart_blanks_append hblanks
        (any_head?_identifier hidentifier (fun c hc => isBlank_eq_false_of_isWord hc) _)
    have hscoped : afterScopeKeyword? ((s.1 ++ s.2) ++ e.named) = some e.named := by
      rw [afterScopeKeyword?_eq, hfirst, Option.any_some, if_pos hblank, htrim,
        takeIdentifier_append hidentifier (any_head?_named h), Option.bind_some, if_pos hkeyword]
    rw [Option.elim_some, hword _ (by rw [hfirst]; exact isWord_eq_false_of_isBlank hblank),
      Option.bind_some, hscoped, Option.bind_some, enumName?_named h]
    rfl

/-- A declaration is read as its parts, whatever follows it. -/
theorem enumDeclaration?_text (v : List Char) :
    enumDeclaration? (e.text ++ v) = some ⟨e.scope.isSome, e.name, e.list.text⟩ := by
  refine enumDeclaration?_append_of_some ?_ v
  rw [enumDeclaration?_eq, enumHead?_text h, Option.bind_some]
  dsimp only
  rw [enumBody?_body h]
  rfl

end EnumText

/-! ## Behind a marker -/

/-- A declaration behind a marker is among the enumerations of its header. Its list is cut into the
enumerators if and only if it keeps its commas, and then its values are their names, in order. -/
theorem enumerationsOf_enumText {text : List Char} {site : Marker.Site}
    (hsite : site ∈ Marker.enumeration.sites text) {e : EnumText} (he : e.WellFormed)
    {v : List Char} (hrest : skipTrivia site.rest = e.text ++ v) (path includePath : String)
    (scope : Option String) :
    let unit : SourceUnit := ⟨path, includePath, String.ofList text⟩
    let found := enumerationIn path includePath scope (ownerName text site.start)
      (e.scope.isSome, e.name, enumerators e.list.text)
    enumerationAt unit scope (classDeclarations text) site = .ok found ∧
      found ∈ (enumerationsOf unit scope).1 ∧
      (e.list.enumerators ≠ [] →
        (splitTopLevel ',' e.list.code = e.list.codes ↔ KeepsCommas 0 0 e.list.code)) ∧
      (KeepsCommas 0 0 e.list.code → found.values = e.list.names.map String.ofList) := by
  intro unit found
  have hdeclaration := EnumText.enumDeclaration?_text he v
  refine ⟨?_, ?_, EnumeratorList.splitTopLevel_code_iff he.list,
    EnumeratorList.enumerators_text he.list⟩
  · rw [enumerationAt, hrest, hdeclaration]
    rfl
  · rw [fst_enumerationsOf]
    refine List.mem_filterMap.2 ⟨site, hsite, ?_⟩
    rw [readEnumeration?, hrest, hdeclaration]
    rfl

/-- Flags with comments, a list of arguments, an equality, a repeated name, and a shift in front of
the comma at the end. -/
def flagText : EnumText where
  scope := some (" ".toList, "class".toList)
  gap := " ".toList
  attributes := [("nodiscard".toList, " ".toList)]
  name := "Flag".toList
  behind := []
  type := some " unsigned char ".toList
  list :=
    { enumerators := [
        ⟨[.lineComment " one; per line".toList, .blank ' '], "None".toList, [.blank ' '],
          some [.word "mask".toList, .mark '(', .word "1".toList, .mark ',', .word "2".toList,
            .mark ')', .blockComment " a, b ".toList]⟩,
        ⟨[.blank '\n'], "Low".toList, [], none⟩,
        ⟨[], "Low".toList, [.blockComment "\n".toList], some [.mark '(', .word "None".toList,
          .mark '=', .mark '=', .word "0".toList, .mark ')', .mark '/', .word "7".toList]⟩,
        ⟨[.blank ' '], "High".toList, [], some [.word "1'000".toList, .mark '<', .mark '<',
          .word "2".toList]⟩]
      closing := some [.blank ' '] }
  close := "\n".toList

/-- They are cut at the commas between them, and their values are the four names. -/
theorem flag_enumerationsOf :
    let text := "class Ship \x7b\n//= SCRIPTABLE ENUM\n// flags\n".toList ++
      (flagText.text ++ ['\n'])
    flagText.WellFormed ∧ KeepsCommas 0 0 flagText.list.code ∧
      splitTopLevel ',' flagText.list.code = flagText.list.codes ∧
      ∃ found ∈ (enumerationsOf ⟨"ship.h", "ship.h", String.ofList text⟩ none).1,
        found.name = "Ship::Flag" ∧ found.values = ["None", "Low", "Low", "High"] := by
  intro text
  have hwell : flagText.WellFormed := by decide +kernel
  have hkeeps : KeepsCommas 0 0 flagText.list.code := by decide +kernel
  have hsite : ⟨13, 32, "\n// flags\n".toList ++ (flagText.text ++ ['\n'])⟩ ∈
      Marker.enumeration.sites text := by decide +kernel
  have hrest : skipTrivia ("\n// flags\n".toList ++ (flagText.text ++ ['\n'])) =
      flagText.text ++ ['\n'] := by decide +kernel
  obtain ⟨-, hfound, hsplit, hvalues⟩ :=
    enumerationsOf_enumText hsite hwell hrest "ship.h" "ship.h" none
  have hne : flagText.list.enumerators ≠ [] := by decide
  exact ⟨hwell, hkeeps, (hsplit hne).2 hkeeps, _, hfound, by decide +kernel, hvalues hkeeps⟩

/-- Behind a shift to the left an enumerator is lost, and behind one to the right an argument is
taken for an enumerator. -/
theorem flags_lost :
    let flags (list : EnumeratorList) : EnumText :=
      ⟨none, " ".toList, [], "Flags".toList, " ".toList, none, list, []⟩
    let lost := flags ⟨[⟨[.blank ' '], "A".toList, [.blank ' '], some [.blank ' ', .word "1".toList,
        .blank ' ', .mark '<', .mark '<', .blank ' ', .word "3".toList]⟩,
      ⟨[.blank ' '], "B".toList, [.blank ' '], none⟩], none⟩
    let added := flags ⟨[⟨[.blank ' '], "A".toList, [.blank ' '], some [.blank ' ', .word "8".toList,
        .blank ' ', .mark '>', .mark '>', .blank ' ', .word "1".toList]⟩,
      ⟨[.blank ' '], "B".toList, [.blank ' '], some [.blank ' ', .word "f".toList, .mark '(',
        .word "1".toList, .mark ',', .blank ' ', .word "2".toList, .mark ')', .blank ' ']⟩], none⟩
    let marked (e : EnumText) : List Char := "//= SCRIPTABLE ENUM\n".toList ++ (e.text ++ ['\n'])
    let values (e : EnumText) : List (List String) :=
      (enumerationsOf ⟨"a.h", "a.h", String.ofList (marked e)⟩ none).1.map (·.values)
    (String.ofList lost.text = "enum Flags \x7b A = 1 << 3, B \x7d;" ∧
      String.ofList added.text = "enum Flags \x7b A = 8 >> 1, B = f(1, 2) \x7d;") ∧
      (∀ e ∈ [lost, added], e.WellFormed ∧ e.list.names = ["A".toList, "B".toList] ∧
        (Marker.enumeration.sites (marked e)).map (fun s => skipTrivia s.rest) =
          [e.text ++ ['\n']]) ∧
      values lost = [["A"]] ∧ values added = [["A", "B", "2)"]] := by
  decide +kernel

end ChaiBind.Header
