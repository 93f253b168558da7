import ChaiBind.Proofs.Binding.ForwardedNames
import ChaiBind.Proofs.Text.Parts

/-!
# What the text of a parameter says

A declaration that ends in a name is a type, perhaps blanks, and that name (`Declares`), and can be
read in no other way (`ofDeclaration_of_declares`). So the text that the lambda of a static method
has for a parameter, which is its type, a space and a name, declares just that type and that name.

* `ofDeclaration_cases`: a parameter has a name exactly if its declaration can be read so.
* `ofDeclaration_text`: what a parameter says about its declaration, and the lambda about it.
-/

namespace ChaiBind

open Text

namespace Param

/-! ## Names -/

/-- A plain identifier that is no keyword of a type. -/
def IsName (name : List Char) : Prop :=
  isAsciiIdentifier name ∧ String.ofList name ∉ typeKeywords

theorem isWord_of_isAsciiIdentifierChar {c : Char} (h : isAsciiIdentifierChar c) : isWord c := by
  rw [isAsciiIdentifierChar, Bool.or_eq_true, decide_eq_true_eq] at h
  rcases h with h | rfl
  · exact isWord_of_isAlphanum (toNat_lt_of_isAlphanum h) h
  · rfl

/-- No type ends inside a name. -/
theorem endsType_eq_false {c : Char} (h : isWord c) : endsType c = false := by
  have hblank := isBlank_eq_false_of_isWord h
  have hsign : c ≠ '&' ∧ c ≠ '*' := by
    constructor <;> rintro rfl <;> exact absurd h (by decide +kernel)
  simp [endsType, hblank, hsign]

namespace IsName

variable {name : List Char} (h : IsName name)
include h

theorem ne_nil : name ≠ [] := by
  rintro rfl
  cases h.1

theorem isWord_of_mem {c : Char} (hc : c ∈ name) : isWord c := by
  obtain ⟨d, ds, rfl⟩ := List.exists_cons_of_ne_nil h.ne_nil
  obtain ⟨hd, hds⟩ := Bool.and_eq_true_iff.1 h.1
  rcases List.mem_cons.1 hc with rfl | hc
  · exact isWord_of_isIdentifierStart hd
  · exact isWord_of_isAsciiIdentifierChar (List.all_eq_true.1 hds c hc)

end IsName

theorem isName_numberedName (i : Nat) : IsName (numberedName i).toList := by
  have htext : (numberedName i).toList = "arg".toList ++ Nat.toDigits 10 i := by
    rw [numberedName, String.toList_append, Nat.toString_eq_repr, Nat.toList_repr]
  rw [IsName, htext]
  constructor
  · refine Bool.and_eq_true_iff.2 ⟨rfl, List.all_eq_true.2 fun c hc => ?_⟩
    rcases List.mem_append.1 hc with hc | hc
    · exact (by decide : ∀ c ∈ ['r', 'g'], isAsciiIdentifierChar c = true) c hc
    · have hdigit := Nat.isDigit_of_mem_toDigits (by omega) (by omega) hc
      rw [isAsciiIdentifierChar, Char.isAlphanum, hdigit, Bool.or_true, Bool.true_or]
  · intro hmem
    have hkeywords : ∀ w ∈ typeKeywords, ¬ "arg".toList <+: w.toList := by decide
    refine hkeywords _ hmem ⟨Nat.toDigits 10 i, ?_⟩
    exact String.toList_ofList.symm

/-! ## Cuts -/

/-- A declaration is cut behind the last character that ends a type. -/
theorem cutName_append {before name : List Char} (hname : ∀ c ∈ name, endsType c = false)
    (hbefore : ∀ c ∈ before.getLast?, endsType c) : cutName (before ++ name) = (before, name) := by
  have hpos : ∀ c ∈ name.reverse, (!endsType c) = true := fun c hc => by
    rw [hname c (List.mem_reverse.1 hc), Bool.not_false]
  have hstop : before.reverse.takeWhile (fun c => !endsType c) = [] := by
    rcases List.eq_nil_or_concat before with rfl | ⟨before, d, rfl⟩
    · rfl
    · have hd : endsType d := hbefore d (by simp)
      rw [List.concat_eq_append, List.reverse_concat, List.takeWhile_cons, hd, Bool.not_true, if_neg Bool.false_ne_true]
  have htake : ((before ++ name).reverse.takeWhile fun c => !endsType c).reverse = name := by
    rw [List.reverse_append, List.takeWhile_append_of_pos hpos, hstop, List.append_nil,
      List.reverse_reverse]
  rw [cutName, htake, List.length_append, Nat.add_sub_cancel, List.take_left]

theorem exists_cutName (decl : List Char) : ∃ before name, decl = before ++ name ∧
    (∀ c ∈ before.getLast?, endsType c) ∧ cutName decl = (before, name) := by
  let ends : Char → Bool := fun c => !endsType c
  have hsplit : decl = (decl.reverse.dropWhile ends).reverse ++ (decl.reverse.takeWhile ends).reverse := by
    rw [← List.reverse_append, List.takeWhile_append_dropWhile, List.reverse_reverse]
  have hname : ∀ c ∈ (decl.reverse.takeWhile ends).reverse, endsType c = false := by
    intro c hc
    simpa [ends] using List.mem_takeWhile_imp (List.mem_reverse.1 hc)
  have hbefore : ∀ c ∈ (decl.reverse.dropWhile ends).reverse.getLast?, endsType c := by
    intro c hc
    have hhead := any_head?_dropWhile ends decl.reverse
    rw [List.getLast?_reverse] at hc
    rw [Option.mem_def.1 hc] at hhead
    simpa [ends] using hhead
  refine ⟨_, _, hsplit, hbefore, ?_⟩
  nth_rewrite 1 [hsplit]
  exact cutName_append hname hbefore

theorem isNamed_iff {type name : List Char} :
    isNamed type name ↔ IsName name ∧ type ≠ [] ∧ type ≠ "const".toList := by
  simp [isNamed, IsName, and_assoc]

/-! ## Declarations -/

/-- A declaration is a type, perhaps blanks, and a name. Without blanks the type ends in a star or an
ampersand. -/
structure Declares (decl type name : List Char) : Prop where
  isName : IsName name
  typed : type ≠ [] ∧ type ≠ "const".toList
  trimmed : ∀ c ∈ type.getLast?, isBlank c = false
  split : ∃ blanks, (∀ c ∈ blanks, isBlank c) ∧ decl = type ++ blanks ++ name ∧
    ∀ c ∈ (type ++ blanks).getLast?, endsType c

theorem trimEnd_eq_self {cs : List Char} (h : ∀ c ∈ cs.getLast?, isBlank c = false) :
    trimEnd cs = cs := by
  have hhead : cs.reverse.head?.any isBlank = false := by
    rw [List.head?_reverse, Option.any_eq_false]
    intro c hc
    rw [h c hc]
  rw [trimEnd, dropWhile_eq_self hhead, List.reverse_reverse]

theorem getLast?_trimEnd (cs : List Char) : ∀ c ∈ (trimEnd cs).getLast?, isBlank c = false := by
  intro c hc
  have hhead := any_head?_dropWhile isBlank cs.reverse
  rw [trimEnd, List.getLast?_reverse] at hc
  rwa [Option.mem_def.1 hc] at hhead

theorem ofDeclaration_of_declares {text type name : List Char} (h : Declares (trim text) type name) :
    ofDeclaration text =
      ⟨String.ofList (trim text), String.ofList type, some (String.ofList name)⟩ := by
  obtain ⟨blanks, hblanks, hsplit, hends⟩ := h.split
  have hname : ∀ c ∈ name, endsType c = false := fun c hc =>
    endsType_eq_false (h.isName.isWord_of_mem hc)
  have htype : trimEnd (type ++ blanks) = type := by
    rw [trimEnd_append_of_blank hblanks, trimEnd_eq_self h.trimmed]
  rw [ofDeclaration, hsplit, cutName_append hname hends, ← hsplit]
  dsimp only
  rw [htype, if_pos (isNamed_iff.2 ⟨h.isName, h.typed⟩)]

/-- A parameter has the name that its declaration ends in, or no name if it ends in none. -/
theorem ofDeclaration_cases (text : List Char) :
    (∃ type name, Declares (trim text) type name ∧ ofDeclaration text =
        ⟨String.ofList (trim text), String.ofList type, some (String.ofList name)⟩) ∨
      (∀ type name, ¬ Declares (trim text) type name) ∧
        ofDeclaration text = ⟨String.ofList (trim text), String.ofList (trim text), none⟩ := by
  obtain ⟨before, name, hsplit, hends, hcut⟩ := exists_cutName (trim text)
  obtain ⟨blanks, hblanks, hbefore⟩ := exists_append_trimEnd before
  by_cases hnamed : isNamed (trimEnd before) name
  · obtain ⟨hname, htyped⟩ := isNamed_iff.1 hnamed
    have hdeclares : Declares (trim text) (trimEnd before) name :=
      ⟨hname, htyped, getLast?_trimEnd before, blanks, hblanks, hbefore ▸ hsplit, hbefore ▸ hends⟩
    exact .inl ⟨trimEnd before, name, hdeclares, ofDeclaration_of_declares hdeclares⟩
  · have hnone : ofDeclaration text =
        ⟨String.ofList (trim text), String.ofList (trim text), none⟩ := by
      rw [ofDeclaration, hcut]
      exact if_neg hnamed
    refine .inr ⟨fun type name' hdeclares => ?_, hnone⟩
    have hsome := congrArg Param.name (ofDeclaration_of_declares hdeclares)
    rw [hnone] at hsome
    exact absurd hsome (Option.some_ne_none _).symm

theorem any_head?_trim (cs : List Char) : (trim cs).head?.any isBlank = false := by
  obtain ⟨b, -, hend⟩ := exists_append_trimEnd (trimStart cs)
  have hblank := any_head?_dropWhile isBlank cs
  rw [← trimStart, hend, ← trim] at hblank
  cases htrim : trim cs with
  | nil => rfl
  | cons d ds =>
    rw [htrim] at hblank
    exact hblank

/-- A type, a space and a name declare a parameter with just that type and that name. -/
theorem ofDeclaration_spaced {type name : List Char} (hname : IsName name)
    (htyped : type ≠ [] ∧ type ≠ "const".toList) (hhead : type.head?.any isBlank = false)
    (hlast : ∀ c ∈ type.getLast?, isBlank c = false) :
    ofDeclaration (type ++ ' ' :: name) = ⟨String.ofList (type ++ ' ' :: name),
      String.ofList type, some (String.ofList name)⟩ := by
  have hwhole : trim (type ++ ' ' :: name) = type ++ ' ' :: name := by
    have hstart : trimStart (type ++ ' ' :: name) = type ++ ' ' :: name :=
      dropWhile_eq_self (by rwa [List.head?_append_of_ne_nil type htyped.1])
    rw [trim, hstart]
    refine trimEnd_eq_self fun c hc => isBlank_eq_false_of_isWord (hname.isWord_of_mem ?_)
    rw [List.append_cons, List.getLast?_append_of_ne_nil _ hname.ne_nil] at hc
    exact List.mem_of_getLast? hc
  have hspace : ∀ c ∈ (type ++ [' ']).getLast?, endsType c := by
    rw [List.getLast?_concat]
    rintro c ⟨⟩
    rfl
  have hdeclares : Declares (trim (type ++ ' ' :: name)) type name :=
    ⟨hname, htyped, hlast, [' '], by decide, by rw [hwhole, List.append_assoc]; rfl, hspace⟩
  rw [ofDeclaration_of_declares hdeclares, hwhole]

/-! ## The lambda of a static method -/

/-- The name of a parameter in a lambda, given its position. -/
def forwardedName (p : Param) (i : Nat) : String := p.name.getD (numberedName i)

/-- The text of a parameter in a lambda, given its position. -/
def lambdaText (p : Param) (i : Nat) : String := p.type ++ " " ++ p.forwardedName i

theorem getElem?_forwardingNamesFrom (i k : Nat) (ps : List Param) :
    (forwardingNamesFrom i ps)[k]? = ps[k]?.map fun p => p.forwardedName (i + k) := by
  induction ps generalizing i k with
  | nil => rfl
  | cons p ps ih =>
    cases k with
    | zero => rfl
    | succ k =>
      rw [forwardingNamesFrom, List.getElem?_cons_succ, List.getElem?_cons_succ, ih,
        Nat.add_right_comm, Nat.add_assoc]

end Param

/-- The lambda of a static method declares the parameter at a position behind the instance. -/
theorem Overload.exists_declared_of_isStatic {o : Overload} (h : o.isStatic) {i : Nat} {p : Param}
    (hp : o.params[i]? = some p) (type method : String) :
    ∃ (declared : List String) (call : String), o.callable type method =
        "[](" ++ commaSeparated declared ++ ") \x7b return " ++ call ++ "; \x7d" ∧
      declared[i + 1]? = some (p.lambdaText i) := by
  have hname : (Param.forwardingNames o.params)[i]? = some (p.forwardedName i) := by
    rw [Param.forwardingNames, Param.getElem?_forwardingNamesFrom, hp, Nat.zero_add]
    rfl
  have htype : (o.params.map (·.type))[i]? = some p.type := by
    rw [List.getElem?_map, hp]
    rfl
  have hdeclared : (Param.lambdaParams o.params)[i]? =
      some (p.type, p.forwardedName i) :=
    List.getElem?_zip_eq_some.2 ⟨htype, hname⟩
  refine ⟨(type ++ "& /*self*/") :: (Param.lambdaParams o.params).map fun d => d.1 ++ " " ++ d.2,
    type ++ "::" ++ method ++ "(" ++
      commaSeparated ((Param.lambdaParams o.params).map Prod.snd) ++ ")", ?_, ?_⟩
  · rw [o.callable_of_isStatic h type method]
    simp only [String.append_assoc]
    rfl
  · rw [List.getElem?_cons_succ, List.getElem?_map, hdeclared]
    rfl

namespace Param

theorem decl_ofDeclaration (text : List Char) :
    (ofDeclaration text).decl = String.ofList (trim text) := by
  rcases ofDeclaration_cases text with ⟨_, _, -, heq⟩ | ⟨-, heq⟩ <;> rw [heq]

theorem declares_of_name_eq_some {text : List Char} {name : String}
    (h : (ofDeclaration text).name = some name) :
    Declares (ofDeclaration text).decl.toList (ofDeclaration text).type.toList name.toList := by
  rcases ofDeclaration_cases text with ⟨type, _, hdeclares, heq⟩ | ⟨-, heq⟩
  · rw [heq] at h ⊢
    obtain rfl := Option.some.inj h
    simpa only [String.toList_ofList] using hdeclares
  · rw [heq] at h
    exact absurd h.symm (Option.some_ne_none name)

theorem type_of_name_eq_none {text : List Char} (h : (ofDeclaration text).name = none) :
    (ofDeclaration text).type = (ofDeclaration text).decl := by
  rcases ofDeclaration_cases text with ⟨_, name, -, heq⟩ | ⟨-, heq⟩
  · rw [heq] at h
    exact absurd h (Option.some_ne_none _)
  · rw [heq]

/-- No type starts or ends with a blank. -/
theorem isBlank_type (text : List Char) :
    (ofDeclaration text).type.toList.head?.any isBlank = false ∧
      ∀ c ∈ (ofDeclaration text).type.toList.getLast?, isBlank c = false := by
  have hdecl : (ofDeclaration text).decl.toList = trim text := by
    rw [decl_ofDeclaration, String.toList_ofList]
  cases hname : (ofDeclaration text).name with
  | none =>
    rw [type_of_name_eq_none hname, hdecl]
    exact ⟨any_head?_trim text, getLast?_trimEnd (trimStart text)⟩
  | some name =>
    have hdeclares := declares_of_name_eq_some hname
    obtain ⟨blanks, -, hsplit, -⟩ := hdeclares.split
    refine ⟨?_, hdeclares.trimmed⟩
    rw [hdecl, List.append_assoc] at hsplit
    rw [← List.head?_append_of_ne_nil _ hdeclares.typed.1, ← hsplit]
    exact any_head?_trim text

/-- A parameter keeps the text of its declaration without the blanks around it. If it has a name,
the declaration is its type, blanks and that name, and otherwise all of it is the type. Unless the
type says nothing, or only `const`, the text that the lambda of a static method has for the
parameter declares a parameter with the same type and the name that the lambda gives it. -/
theorem ofDeclaration_text (text : List Char) :
    let p := ofDeclaration text
    p.decl = String.ofList (trim text) ∧
      (∀ name ∈ p.name, Declares p.decl.toList p.type.toList name.toList) ∧
      (p.name = none → p.type = p.decl) ∧
      (p.type ≠ "" → p.type ≠ "const" → ∀ i, ofDeclaration (p.lambdaText i).toList =
        ⟨p.lambdaText i, p.type, some (p.forwardedName i)⟩) ∧
      ∀ (o : Overload) (type method : String) (i : Nat), o.isStatic → o.params[i]? = some p →
        ∃ (params : List String) (call : String), o.callable type method =
            "[](" ++ commaSeparated params ++ ") \x7b return " ++ call ++ "; \x7d" ∧
          params[i + 1]? = some (p.lambdaText i) := by
  intro p
  refine ⟨decl_ofDeclaration text, fun name => declares_of_name_eq_some, type_of_name_eq_none, ?_,
    fun o type method i hstatic hp => o.exists_declared_of_isStatic hstatic hp type method⟩
  intro hne hconst i
  have hname : IsName (p.forwardedName i).toList := by
    rw [forwardedName]
    cases hname : p.name with
    | none => exact isName_numberedName i
    | some name => exact (declares_of_name_eq_some hname).isName
  have htyped : p.type.toList ≠ [] ∧ p.type.toList ≠ "const".toList :=
    ⟨fun h => hne (String.toList_inj.1 h), fun h => hconst (String.toList_inj.1 h)⟩
  have htext : (p.lambdaText i).toList = p.type.toList ++ ' ' :: (p.forwardedName i).toList := by
    simp only [lambdaText, String.toList_append, List.append_assoc]
    rfl
  obtain ⟨hhead, hlast⟩ := isBlank_type text
  rw [htext, ofDeclaration_spaced hname htyped hhead hlast, ← htext]
  simp only [String.ofList_toList]

/-- A declaration without a blank in front of its name, which is the second parameter of a list. -/
theorem ofDeclaration_text_key :
    let p : Param := ⟨"const Key  *const*key", "const Key  *const*", some "key"⟩
    let o := factory "int, const Key  *const*key\t"
    ofDeclaration " const Key  *const*key\t".toList = p ∧ p.type ≠ "" ∧ p.type ≠ "const" ∧
      o.isStatic ∧ o.params[1]? = some p ∧
      ofDeclaration "const Key  *const* key".toList =
        ⟨"const Key  *const* key", "const Key  *const*", some "key"⟩ ∧
      ∃ (params : List String) (call : String), o.callable "Foo" "create" =
          "[](" ++ commaSeparated params ++ ") \x7b return " ++ call ++ "; \x7d" ∧
        params[2]? = some "const Key  *const* key" := by
  intro p o
  have hp : ofDeclaration " const Key  *const*key\t".toList = p := by decide
  have hparams : o.params[1]? = some p := by decide
  have hdeclared : p.lambdaText 1 = "const Key  *const* key" := by decide
  have htext := ofDeclaration_text " const Key  *const*key\t".toList
  rw [hp] at htext
  obtain ⟨-, -, -, hspaced, hlambda⟩ := htext
  have hagain := hspaced (by decide) (by decide) 1
  have hcall := hlambda o "Foo" "create" 1 rfl hparams
  rw [hdeclared] at hagain hcall
  exact ⟨hp, by decide, by decide, rfl, hparams, hagain, hcall⟩

end Param

end ChaiBind
