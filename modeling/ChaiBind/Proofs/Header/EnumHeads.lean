import ChaiBind.Header.EnumDeclaration
import ChaiBind.Proofs.Header.ClassLines
import ChaiBind.Proofs.Header.NamespaceOpenings

/-!
# Heads and bodies of enumerations

A declaration of an enumeration is its head, which ends with the name, and what
starts with a colon or a brace (`enumDeclaration?_eq`). What follows a complete head
does not change it (`enumHead?_append`), and what follows the semicolon does not change
the body (`closedBody?_append`).
-/

namespace ChaiBind.Header

open Text

/-! ## Names -/

theorem takeIdentifier_append_of_ne_nil {cs name rest : List Char}
    (h : takeIdentifier cs = some (name, rest)) (hne : rest ≠ []) (v : List Char) :
    takeIdentifier (cs ++ v) = some (name, rest ++ v) := by
  obtain ⟨hname, hrest, rfl⟩ := takeIdentifier_eq_some h
  have hhead : (rest ++ v).head? = rest.head? := List.head?_append_of_ne_nil rest hne
  rw [List.append_assoc, takeIdentifier_append hname (hhead ▸ hrest)]

theorem takeIdentifier_append_eq_none {cs : List Char} (h : takeIdentifier cs = none)
    (hne : cs ≠ []) (v : List Char) : takeIdentifier (cs ++ v) = none := by
  obtain ⟨c, cs, rfl⟩ := List.exists_cons_of_ne_nil hne
  rw [takeIdentifier] at h
  split at h
  · cases h
  · rename_i hc
    rw [List.cons_append, takeIdentifier, if_neg hc]

/-- A word that is an identifier is read as one. -/
theorem afterWord?_eq {w : List Char} (hw : IsIdentifier w) (cs : List Char) :
    afterWord? w cs = (takeIdentifier cs).bind fun p => if p.1 = w then some p.2 else none := by
  ext rest
  simp only [afterWord?, Option.filter_eq_some_iff, List.isPrefixOf?_eq_some_iff_append_eq,
    Bool.not_eq_true', Option.bind_eq_some_iff, Option.ite_none_right_eq_some, Option.some.injEq]
  constructor
  · rintro ⟨rfl, hrest⟩
    exact ⟨_, takeIdentifier_append hw hrest, rfl, rfl⟩
  · rintro ⟨⟨name, rest⟩, h, rfl, rfl⟩
    obtain ⟨-, hrest, hcs⟩ := takeIdentifier_eq_some h
    exact ⟨hcs.symm, hrest⟩

theorem skipAttributesAndBlanks_of_none {cs : List Char} (h : afterAttribute? cs = none) (n : Nat) :
    skipAttributesAndBlanks n cs = cs := by
  cases n with
  | zero => rfl
  | succ n => rw [skipAttributesAndBlanks, h]

theorem afterAttribute?_of_takeIdentifier {cs : List Char} {p : List Char × List Char}
    (h : takeIdentifier cs = some p) : afterAttribute? cs = none := by
  refine afterAttribute?_of_head?_ne fun hopen => ?_
  obtain ⟨ds, rfl⟩ := List.head?_eq_some_iff.1 hopen
  cases h

/-- The name of an enumeration behind its keywords, and what follows the blanks after it. -/
def enumName? (cs : List Char) : Option (List Char × List Char) :=
  (takeIdentifier (skipAttributesAndBlanks cs.length (trimStart cs))).map fun p =>
    (p.1, trimStart p.2)

theorem enumName?_of_takeIdentifier {cs : List Char} {p : List Char × List Char}
    (h : takeIdentifier (trimStart cs) = some p) : enumName? cs = some (p.1, trimStart p.2) := by
  rw [enumName?, skipAttributesAndBlanks_of_none (afterAttribute?_of_takeIdentifier h), h]
  rfl

theorem takeIdentifier_skipAttributesAndBlanks_append {n : Nat} {cs name rest : List Char}
    (h : takeIdentifier (skipAttributesAndBlanks n cs) = some (name, rest)) (hne : rest ≠ [])
    (m : Nat) (v : List Char) :
    takeIdentifier (skipAttributesAndBlanks (n + m) (cs ++ v)) = some (name, rest ++ v) := by
  have hplain : ∀ {cs : List Char}, takeIdentifier cs = some (name, rest) → ∀ m,
      takeIdentifier (skipAttributesAndBlanks m (cs ++ v)) = some (name, rest ++ v) := by
    intro cs h m
    have hv := takeIdentifier_append_of_ne_nil h hne v
    rw [skipAttributesAndBlanks_of_none (afterAttribute?_of_takeIdentifier hv), hv]
  induction n generalizing cs with
  | zero => exact hplain h _
  | succ n ih =>
    cases hcs : afterAttribute? cs with
    | none =>
      rw [skipAttributesAndBlanks_of_none hcs] at h
      exact hplain h _
    | some r =>
      rw [skipAttributesAndBlanks, hcs] at h
      dsimp only at h
      have hr : trimStart r ≠ [] := by
        intro hnil
        rw [hnil, skipAttributesAndBlanks_of_none rfl] at h
        cases h
      rw [Nat.succ_add, skipAttributesAndBlanks, afterAttribute?_append_of_some hcs]
      dsimp only
      rw [trimStart_append, if_neg hr]
      exact ih h

theorem enumName?_append {cs name rest : List Char} (h : enumName? cs = some (name, rest))
    (hne : rest ≠ []) (v : List Char) : enumName? (cs ++ v) = some (name, rest ++ v) := by
  obtain ⟨⟨name, r⟩, htake, hp⟩ := Option.map_eq_some_iff.1 h
  obtain ⟨rfl, rfl⟩ := Prod.mk.inj hp
  have hr : r ≠ [] := by
    rintro rfl
    exact hne rfl
  have hcs : trimStart cs ≠ [] := by
    intro hnil
    rw [hnil, skipAttributesAndBlanks_of_none rfl] at htake
    cases htake
  have happend := takeIdentifier_skipAttributesAndBlanks_append htake hr v.length v
  rw [enumName?, trimStart_append, if_neg hcs, List.length_append, happend, Option.map_some]
  dsimp only
  rw [trimStart_append, if_neg hne]

/-! ## Heads -/

/-- A colon or a brace comes first. -/
def StartsBody (cs : List Char) : Prop := cs.head? = some ':' ∨ cs.head? = some '{'

instance (cs : List Char) : Decidable (StartsBody cs) :=
  inferInstanceAs (Decidable (cs.head? = some ':' ∨ cs.head? = some '{'))

namespace StartsBody

variable {cs : List Char} (h : StartsBody cs)
include h

theorem ne_nil : cs ≠ [] := by
  rintro rfl
  rcases h with h | h <;> cases h

theorem append (v : List Char) : StartsBody (cs ++ v) := by
  rwa [StartsBody, List.head?_append_of_ne_nil cs h.ne_nil]

theorem exists_cons : ∃ ds, cs = ':' :: ds ∨ cs = '{' :: ds := by
  obtain ⟨c, ds, rfl⟩ := List.exists_cons_of_ne_nil h.ne_nil
  refine ⟨ds, h.imp (fun hc => ?_) fun hc => ?_⟩
  · rw [Option.some.inj hc]
  · rw [Option.some.inj hc]

theorem afterAttribute?_eq_none : afterAttribute? cs = none := by
  obtain ⟨ds, rfl | rfl⟩ := h.exists_cons <;> rfl

theorem takeIdentifier_eq_none : takeIdentifier cs = none := by
  obtain ⟨ds, rfl | rfl⟩ := h.exists_cons <;> rfl

end StartsBody

/-- No name stands where a body starts. -/
theorem enumName?_of_startsBody {cs : List Char} (h : StartsBody (trimStart cs)) :
    enumName? cs = none := by
  rw [enumName?, skipAttributesAndBlanks_of_none h.afterAttribute?_eq_none, h.takeIdentifier_eq_none]
  rfl

/-- The declaration of an enumeration up to its name. -/
structure EnumHead where
  isScoped : Bool
  name : List Char
  /-- What follows the name and the blanks after it. -/
  rest : List Char
deriving DecidableEq, Repr

/-- What is read up to the name of an enumeration. -/
def enumHead? (cs : List Char) : Option EnumHead :=
  (afterWord? "enum".toList cs).bind fun rest =>
    match (afterScopeKeyword? rest).bind enumName? with
    | some p => some ⟨true, p.1, p.2⟩
    | none => (enumName? rest).map fun p => ⟨false, p.1, p.2⟩

/-- The keyword of a scoped enumeration is an identifier behind blanks. -/
theorem afterScopeKeyword?_eq (cs : List Char) :
    afterScopeKeyword? cs =
      if cs.head?.any isBlank then
        (takeIdentifier (trimStart cs)).bind fun p =>
          if p.1 = "class".toList ∨ p.1 = "struct".toList then some p.2 else none
      else none := by
  have hclass : IsIdentifier "class".toList := by decide
  have hstruct : IsIdentifier "struct".toList := by decide
  rw [afterScopeKeyword?, afterWord?_eq hclass, afterWord?_eq hstruct]
  cases cs.head?.any isBlank with
  | false => rfl
  | true =>
    cases takeIdentifier (trimStart cs) with
    | none => rfl
    | some p =>
      simp only [if_true, guard, Option.pure_def, Option.bind_eq_bind, Option.bind_some]
      by_cases hp : p.1 = "class".toList
      · rw [if_pos hp, Option.some_or, if_pos (Or.inl hp)]
      · simp only [hp, if_false, Option.none_or, false_or]

section

variable {rest name r : List Char}

theorem afterScopeKeyword?_append
    (h : (afterScopeKeyword? rest).bind enumName? = some (name, r)) (hne : r ≠ []) (v : List Char) :
    (afterScopeKeyword? (rest ++ v)).bind enumName? = some (name, r ++ v) := by
  obtain ⟨r', hkeyword, hname⟩ := Option.bind_eq_some_iff.1 h
  have hr' : r' ≠ [] := by
    rintro rfl
    cases hname
  rw [afterScopeKeyword?_eq] at hkeyword ⊢
  have hrest : rest ≠ [] := by
    rintro rfl
    cases hkeyword
  rw [List.head?_append_of_ne_nil rest hrest]
  split at hkeyword
  · rename_i hblank
    obtain ⟨⟨word, r''⟩, htake, hp⟩ := Option.bind_eq_some_iff.1 hkeyword
    obtain ⟨hword, hr''⟩ := Option.ite_none_right_eq_some.1 hp
    obtain rfl := Option.some.inj hr''
    have htrim : trimStart rest ≠ [] := by
      intro hnil
      rw [hnil] at htake
      cases htake
    rw [if_pos hblank, trimStart_append, if_neg htrim,
      takeIdentifier_append_of_ne_nil htake hr' v, Option.bind_some, if_pos hword, Option.bind_some,
      enumName?_append hname hne v]
  · cases hkeyword

/-- A name in front of a body is not taken for a keyword. -/
theorem afterScopeKeyword?_append_of_startsBody
    (h : (afterScopeKeyword? rest).bind enumName? = none) (hname : enumName? rest = some (name, r))
    (hbody : StartsBody r) (v : List Char) :
    (afterScopeKeyword? (rest ++ v)).bind enumName? = none := by
  have htrim : trimStart rest ≠ [] := by
    intro hnil
    rw [enumName?, hnil, skipAttributesAndBlanks_of_none rfl] at hname
    cases hname
  have hrest : rest ≠ [] := by
    rintro rfl
    exact htrim rfl
  rw [afterScopeKeyword?_eq] at h ⊢
  rw [List.head?_append_of_ne_nil rest hrest]
  by_cases hblank : rest.head?.any isBlank
  · rw [if_pos hblank] at h ⊢
    rw [trimStart_append, if_neg htrim]
    cases htake : takeIdentifier (trimStart rest) with
    | none =>
      rw [takeIdentifier_append_eq_none htake htrim]
      rfl
    | some p =>
      obtain ⟨word, r'⟩ := p
      rw [enumName?_of_takeIdentifier htake] at hname
      obtain ⟨rfl, rfl⟩ := Prod.mk.inj (Option.some.inj hname)
      have hr' : r' ≠ [] := by
        rintro rfl
        exact hbody.ne_nil rfl
      have hnone : enumName? (r' ++ v) = none := by
        refine enumName?_of_startsBody ?_
        rw [trimStart_append, if_neg hbody.ne_nil]
        exact hbody.append v
      rw [takeIdentifier_append_of_ne_nil htake hr' v, Option.bind_some]
      split
      · exact hnone
      · rfl
  · rw [if_neg hblank]
    rfl

end

/-- What follows the head of an enumeration that a body follows is no part of the head. -/
theorem enumHead?_append {cs : List Char} {h : EnumHead} (hhead : enumHead? cs = some h)
    (hbody : StartsBody h.rest) (v : List Char) :
    enumHead? (cs ++ v) = some { h with rest := h.rest ++ v } := by
  have henum : IsIdentifier "enum".toList := by decide
  obtain ⟨rest, hword, hrest⟩ := Option.bind_eq_some_iff.1 hhead
  have hne : rest ≠ [] := by
    rintro rfl
    cases hrest
  have hword' : afterWord? "enum".toList (cs ++ v) = some (rest ++ v) := by
    rw [afterWord?_eq henum] at hword ⊢
    obtain ⟨⟨word, r⟩, htake, hp⟩ := Option.bind_eq_some_iff.1 hword
    obtain ⟨hw, hr⟩ := Option.ite_none_right_eq_some.1 hp
    obtain rfl := Option.some.inj hr
    rw [takeIdentifier_append_of_ne_nil htake hne v, Option.bind_some, if_pos hw]
  rw [enumHead?, hword', Option.bind_some]
  cases hscoped : (afterScopeKeyword? rest).bind enumName? with
  | some p =>
    rw [hscoped] at hrest
    obtain rfl := Option.some.inj hrest
    rw [afterScopeKeyword?_append hscoped hbody.ne_nil v]
  | none =>
    rw [hscoped] at hrest
    obtain ⟨p, hname, rfl⟩ := Option.map_eq_some_iff.1 hrest
    rw [afterScopeKeyword?_append_of_startsBody hscoped hname hbody v]
    dsimp only
    rw [enumName?_append hname hbody.ne_nil v]
    rfl

/-! ## Bodies -/

/-- What follows the brace that opens the body. -/
def enumOpening? (cs : List Char) : Option (List Char) :=
  (afterUnderlyingType? cs).bind (['{'].isPrefixOf? ·)

/-- The body that ends at the first closing brace, if a semicolon follows that. -/
def closedBody? (cs : List Char) : Option (List Char) :=
  (['}'].isPrefixOf? (cs.dropWhile (· ≠ '}'))).bind fun after =>
    if (trimStart after).head? = some ';' then some (cs.takeWhile (· ≠ '}')) else none

/-- What is read between the braces behind the name. -/
def enumBody? (cs : List Char) : Option (List Char) := (enumOpening? cs).bind closedBody?

theorem startsBody_of_enumOpening? {cs b : List Char} (h : enumOpening? cs = some b) :
    StartsBody cs := by
  obtain ⟨r, htype, hstarts⟩ := Option.bind_eq_some_iff.1 h
  unfold afterUnderlyingType? at htype
  split at htype
  · exact .inl rfl
  · obtain rfl := Option.some.inj htype
    obtain rfl := List.isPrefixOf?_eq_some_iff_append_eq.1 hstarts
    exact .inr rfl

theorem startsBody_of_enumBody? {cs body : List Char} (h : enumBody? cs = some body) :
    StartsBody cs := by
  obtain ⟨b, hb, -⟩ := Option.bind_eq_some_iff.1 h
  exact startsBody_of_enumOpening? hb

theorem enumTail?_eq (cs : List Char) :
    enumTail? cs = (enumName? cs).bind fun p => (enumBody? p.2).map fun body => (p.1, body) := by
  rw [enumTail?, enumName?]
  cases takeIdentifier (skipAttributesAndBlanks cs.length (trimStart cs)) with
  | none => rfl
  | some p =>
    simp only [Option.bind_eq_bind, Option.bind_some, Option.map_some, enumBody?, enumOpening?]
    cases afterUnderlyingType? (trimStart p.2) with
    | none => rfl
    | some r =>
      simp only [Option.bind_some]
      cases ['{'].isPrefixOf? r with
      | none => rfl
      | some b =>
        simp only [Option.bind_some, closedBody?]
        cases ['}'].isPrefixOf? (b.dropWhile (· ≠ '}')) with
        | none => rfl
        | some after =>
          simp only [Option.bind_some]
          by_cases hsemicolon : (trimStart after).head? = some ';'
          · simp [hsemicolon]
          · simp [hsemicolon]

/-- Where a keyword and a name follow `enum`, the keyword is not the name, since no body follows
it. -/
theorem enumTail?_eq_none {rest r : List Char} {p : List Char × List Char}
    (hkeyword : afterScopeKeyword? rest = some r) (hname : enumName? r = some p) :
    enumTail? rest = none := by
  rw [afterScopeKeyword?_eq] at hkeyword
  split at hkeyword
  · obtain ⟨⟨word, r'⟩, htake, hp⟩ := Option.bind_eq_some_iff.1 hkeyword
    obtain ⟨-, hr'⟩ := Option.ite_none_right_eq_some.1 hp
    obtain rfl := Option.some.inj hr'
    rw [enumTail?_eq, enumName?_of_takeIdentifier htake, Option.bind_some]
    cases hbody : enumBody? (trimStart r') with
    | none => rfl
    | some body =>
      rw [enumName?_of_startsBody (startsBody_of_enumBody? hbody)] at hname
      cases hname
  · cases hkeyword

/-- A declaration is a head and a body. -/
theorem enumDeclaration?_eq (cs : List Char) :
    enumDeclaration? cs = (enumHead? cs).bind fun h =>
      (enumBody? h.rest).map fun body => ⟨h.isScoped, h.name, body⟩ := by
  have hplain : ∀ rest, ((enumTail? rest).bind fun t => some (⟨false, t.1, t.2⟩ : EnumDeclaration)) =
      ((enumName? rest).map fun p => (⟨false, p.1, p.2⟩ : EnumHead)).bind fun h =>
        (enumBody? h.rest).map fun body => ⟨h.isScoped, h.name, body⟩ := by
    intro rest
    rw [enumTail?_eq]
    cases enumName? rest with
    | none => rfl
    | some p =>
      simp only [Option.bind_some, Option.map_some]
      cases enumBody? p.2 <;> rfl
  rw [enumDeclaration?, enumHead?]
  cases afterWord? "enum".toList cs with
  | none => rfl
  | some rest =>
    simp only [Option.bind_eq_bind, Option.bind_some]
    cases hkeyword : afterScopeKeyword? rest with
    | none => exact hplain rest
    | some r =>
      simp only [Option.bind_some, enumTail?_eq r]
      cases hname : enumName? r with
      | none => exact hplain rest
      | some p =>
        simp only [Option.bind_some]
        cases enumBody? p.2 with
        | some body => rfl
        | none => simp only [Option.map_none, enumTail?_eq_none hkeyword hname, Option.bind_none]

theorem closedBody?_eq_some_iff {cs body : List Char} :
    closedBody? cs = some body ↔
      ∃ after, cs = body ++ '}' :: after ∧ '}' ∉ body ∧ (trimStart after).head? = some ';' := by
  have hsplit : cs.takeWhile (· ≠ '}') ++ cs.dropWhile (· ≠ '}') = cs :=
    List.takeWhile_append_dropWhile
  constructor
  · intro h
    obtain ⟨after, hafter, hbody⟩ := Option.bind_eq_some_iff.1 h
    obtain ⟨hsemicolon, htake⟩ := Option.ite_none_right_eq_some.1 hbody
    obtain rfl := Option.some.inj htake
    have hclose := List.isPrefixOf?_eq_some_iff_append_eq.1 hafter
    refine ⟨after, ?_, fun hmem => ?_, hsemicolon⟩
    · rw [← List.singleton_append, hclose, hsplit]
    · simpa using List.mem_takeWhile_imp hmem
  · rintro ⟨after, rfl, hbody, hsemicolon⟩
    have hall : ∀ c ∈ body, decide (c ≠ '}') = true := by
      intro c hc
      exact decide_eq_true fun e => hbody (e ▸ hc)
    rw [closedBody?, List.dropWhile_append_of_pos hall, List.takeWhile_append_of_pos hall]
    simp [List.isPrefixOf?, hsemicolon]

theorem closedBody?_append {cs body : List Char} (h : closedBody? cs = some body) (v : List Char) :
    closedBody? (cs ++ v) = some body := by
  obtain ⟨after, rfl, hbody, hsemicolon⟩ := closedBody?_eq_some_iff.1 h
  have hne : trimStart after ≠ [] := by
    intro hnil
    rw [hnil] at hsemicolon
    cases hsemicolon
  refine closedBody?_eq_some_iff.2 ⟨after ++ v, by simp, hbody, ?_⟩
  rw [trimStart_append, if_neg hne, List.head?_append_of_ne_nil _ hne, hsemicolon]

theorem closedBody?_append_of_notMem {w : List Char} (h : '}' ∉ w) (v : List Char) :
    closedBody? (w ++ v) = (closedBody? v).map (w ++ ·) := by
  have hall : ∀ c ∈ w, decide (c ≠ '}') = true := by
    intro c hc
    exact decide_eq_true fun e => h (e ▸ hc)
  rw [closedBody?, List.dropWhile_append_of_pos hall, List.takeWhile_append_of_pos hall, closedBody?]
  cases ['}'].isPrefixOf? (v.dropWhile (· ≠ '}')) with
  | none => rfl
  | some after =>
    simp only [Option.bind_some]
    split <;> rfl

/-- A text that closes no underlying type. -/
def StaysInType (cs : List Char) : Prop := '{' ∉ cs ∧ ';' ∉ cs

instance (cs : List Char) : Decidable (StaysInType cs) :=
  inferInstanceAs (Decidable ('{' ∉ cs ∧ ';' ∉ cs))

theorem StaysInType.goesOn {ty : List Char} (hty : StaysInType ty) :
    ∀ c ∈ ty, (decide (c ≠ '{') && decide (c ≠ ';')) = true := by
  intro c hc
  have hbrace : c ≠ '{' := fun e => hty.1 (e ▸ hc)
  have hsemicolon : c ≠ ';' := fun e => hty.2 (e ▸ hc)
  simp [hbrace, hsemicolon]

/-- An underlying type goes on over a text that does not close it. -/
theorem enumOpening?_type {ty v : List Char} (hty : StaysInType ty)
    (hv : v.head? ≠ some '{' ∧ v.head? ≠ some ';') :
    enumOpening? (':' :: (ty ++ v)) =
      ['{'].isPrefixOf? (v.dropWhile fun c => c ≠ '{' && c ≠ ';') := by
  have hdrop : (ty ++ v).dropWhile (fun c => c ≠ '{' && c ≠ ';') =
      v.dropWhile fun c => c ≠ '{' && c ≠ ';' := List.dropWhile_append_of_pos hty.goesOn
  cases hcs : ty ++ v with
  | nil =>
    obtain ⟨rfl, rfl⟩ := List.append_eq_nil_iff.1 hcs
    rfl
  | cons c cs =>
    have hc : c ≠ '{' ∧ c ≠ ';' := by
      cases ty with
      | nil =>
        rw [List.nil_append] at hcs
        rw [hcs] at hv
        exact ⟨fun e => hv.1 (e ▸ rfl), fun e => hv.2 (e ▸ rfl)⟩
      | cons d ty =>
        obtain ⟨rfl, -⟩ := List.cons.inj hcs
        exact ⟨fun e => hty.1 (e ▸ List.mem_cons_self), fun e => hty.2 (e ▸ List.mem_cons_self)⟩
    rw [enumOpening?, afterUnderlyingType?, ← hdrop, hcs]
    simp [hc.1, hc.2]

/-- The brace behind an underlying type opens the body. -/
theorem enumOpening?_underlying {ty : List Char} (hne : ty ≠ []) (hty : StaysInType ty)
    (v : List Char) : enumOpening? (':' :: (ty ++ '{' :: v)) = some v := by
  have hhead : (ty ++ '{' :: v).head? ≠ some '{' ∧ (ty ++ '{' :: v).head? ≠ some ';' := by
    obtain ⟨c, cs, rfl⟩ := List.exists_cons_of_ne_nil hne
    simpa using hty.goesOn c List.mem_cons_self
  have hnone : StaysInType [] := by decide
  rw [← List.nil_append (ty ++ '{' :: v), enumOpening?_type hnone hhead,
    List.dropWhile_append_of_pos hty.goesOn]
  rfl

theorem enumOpening?_append {cs b : List Char} (h : enumOpening? cs = some b) (v : List Char) :
    enumOpening? (cs ++ v) = some (b ++ v) := by
  obtain ⟨r, htype, hstarts⟩ := Option.bind_eq_some_iff.1 h
  obtain rfl := List.isPrefixOf?_eq_some_iff_append_eq.1 hstarts
  unfold afterUnderlyingType? at htype
  split at htype
  · rename_i ty
    cases ty with
    | nil => cases htype
    | cons c ty =>
      dsimp only at htype
      split at htype
      · cases htype
      · rename_i hc
        have hdrop := Option.some.inj htype
        have hne : ((c :: ty).dropWhile fun c => c ≠ '{' && c ≠ ';').isEmpty = false := by
          rw [hdrop]
          rfl
        rw [enumOpening?, List.cons_append, List.cons_append, afterUnderlyingType?, if_neg hc,
          ← List.cons_append, List.dropWhile_append, hne, hdrop]
        rfl
  · obtain rfl := Option.some.inj htype
    rfl

/-- A declaration that starts a text whose head is complete. -/
theorem enumDeclaration?_append {cs : List Char} {h : EnumHead} (hhead : enumHead? cs = some h)
    (hbody : StartsBody h.rest) (v : List Char) :
    enumDeclaration? (cs ++ v) =
      (enumBody? (h.rest ++ v)).map fun body => ⟨h.isScoped, h.name, body⟩ := by
  rw [enumDeclaration?_eq, enumHead?_append hhead hbody v, Option.bind_some]

/-- What follows a complete declaration does not change it. -/
theorem enumDeclaration?_append_of_some {cs : List Char} {d : EnumDeclaration}
    (h : enumDeclaration? cs = some d) (v : List Char) : enumDeclaration? (cs ++ v) = some d := by
  rw [enumDeclaration?_eq] at h
  obtain ⟨head, hhead, hd⟩ := Option.bind_eq_some_iff.1 h
  obtain ⟨body, hbody, rfl⟩ := Option.map_eq_some_iff.1 hd
  obtain ⟨b, hb, hclosed⟩ := Option.bind_eq_some_iff.1 hbody
  rw [enumDeclaration?_append hhead (startsBody_of_enumBody? hbody), enumBody?,
    enumOpening?_append hb, Option.bind_some, closedBody?_append hclosed, Option.map_some]

end ChaiBind.Header
