import ChaiBind.Proofs.Header.Literals
import ChaiBind.Proofs.Header.OverloadMarks
import ChaiBind.Run.Inventory

/-!
# Constructors and the name of the class

The overloads of a table are the members that the lines outside braces declare
(`exists_overload_iff`). One without a return type always has the name of the class. One with the
name of the class has no return type unless other words than specifiers stand in front of the name
(`hidesConstructor`): an access label does, and the constructor behind it is bound as a method.

* `separatesConstructors_iff`: no line of a region hides a constructor.
* `ScriptClass.listsBoundNames_iff`: the inventory lists the names that are bound.
-/

namespace ChaiBind

namespace MethodTable

/-- The constructors of a table are what stands under the name of the class. -/
def SeparatesConstructors (t : MethodTable) (className : String) : Prop :=
  ∀ name os, t.get? name = some os → ∀ o ∈ os, (o.returnType = "" ↔ name = className)

end MethodTable

theorem Overload.isConstructor_iff (o : Overload) : o.isConstructor ↔ o.returnType = "" :=
  String.isEmpty_iff

namespace ScriptClass

/-- The names of methods in the inventory are those under which overloads are bound. -/
def ListsBoundNames (c : ScriptClass) : Prop :=
  ∀ name, name ∈ c.methodNames ↔ ∃ o, (name, o) ∈ c.boundMethods

variable {c : ScriptClass}

theorem mem_boundMethods_iff {name : String} {o : Overload} :
    (name, o) ∈ c.boundMethods ↔
      (∃ os, c.methods.get? name = some os ∧ o ∈ os) ∧ o.returnType ≠ "" := by
  constructor
  · intro h
    obtain ⟨⟨_, os⟩, -, hm⟩ := List.mem_flatMap.1 h
    obtain ⟨_, ho, hname⟩ := List.mem_map.1 hm
    cases hname
    refine ⟨c.exists_get?_of_mem_boundMethods h, fun hnil => ?_⟩
    have hmethod := (List.mem_filter.1 ho).2
    rw [o.isConstructor_iff.2 hnil] at hmethod
    cases hmethod
  · rintro ⟨⟨os, hos, ho⟩, hne⟩
    refine List.mem_flatMap.2 ⟨(name, os), Table.get?_eq_some_iff.1 hos, ?_⟩
    refine List.mem_map_of_mem (List.mem_filter.2 ⟨ho, ?_⟩)
    rw [Bool.not_eq_true', ← Bool.not_eq_true, o.isConstructor_iff]
    exact hne

theorem mem_methodNames_iff {name : String} :
    name ∈ c.methodNames ↔ (∃ os, c.methods.get? name = some os) ∧ name ≠ c.name := by
  rw [methodNames, List.mem_filter, ← Table.contains_iff, Table.contains,
    Option.isSome_iff_exists, decide_eq_true_eq]

/-- If overloads without return types have the name of the class and no name stands for nothing, the
inventory lists what is bound exactly if the constructors are what has the name of the class. -/
theorem listsBoundNames_iff
    (hown : ∀ name os, c.methods.get? name = some os → ∀ o ∈ os, o.returnType = "" → name = c.name)
    (hne : ∀ name os, c.methods.get? name = some os → os ≠ []) :
    c.ListsBoundNames ↔ c.methods.SeparatesConstructors c.name := by
  constructor
  · intro hlists name os hos o ho
    refine ⟨hown name os hos o ho, ?_⟩
    rintro rfl
    by_contra htyped
    have hbound : (c.name, o) ∈ c.boundMethods := mem_boundMethods_iff.2 ⟨⟨os, hos, ho⟩, htyped⟩
    exact (mem_methodNames_iff.1 ((hlists c.name).2 ⟨o, hbound⟩)).2 rfl
  · intro hseparates name
    rw [mem_methodNames_iff]
    simp only [mem_boundMethods_iff]
    constructor
    · rintro ⟨⟨os, hos⟩, hname⟩
      obtain ⟨o, ho⟩ := List.exists_mem_of_ne_nil os (hne name os hos)
      exact ⟨o, ⟨os, hos, ho⟩, fun hnil => hname ((hseparates name os hos o ho).1 hnil)⟩
    · rintro ⟨o, ⟨os, hos, ho⟩, htyped⟩
      exact ⟨⟨os, hos⟩, fun hname => htyped ((hseparates name os hos o ho).2 hname)⟩

end ScriptClass

namespace Header

open Text

/-! ## Lines outside braces -/

/-- The code of the lines that stand outside braces, from a depth of braces on. -/
def outerFrom : Nat → List (List Char) → List (List Char)
  | _, [] => []
  | depth, line :: lines =>
    (if depth = 0 then [lineCode line] else []) ++ outerFrom (depthAfter depth (lineCode line)) lines

/-- The code of the lines of a region outside braces. -/
def outerLines (body : List Char) : List (List Char) :=
  outerFrom 0 (inclusiveLines (stripComments body))

/-- A line declares a function with the name of the class and is read as giving it a return type. -/
def hidesConstructor (className : String) (line : List Char) : Bool :=
  !(isDeleted line || containsWord "operator".toList line) && (signature? line).any fun s =>
    s.declares className && String.ofList s.name = className && s.returnType ≠ []

section

variable {className : String} {code : List Char}

theorem membersFrom_eq_filterMap (depth : Nat) (lines : List (List Char)) :
    membersFrom className code depth lines =
      (outerFrom depth lines).filterMap fun line => (readLine className code line).member? := by
  induction lines generalizing depth with
  | nil => rfl
  | cons line lines ih =>
    rw [membersFrom, outerFrom, List.filterMap_append, ih]
    split
    · cases hmember : (readLine className code (lineCode line)).member? <;> simp [hmember]
    · rfl

/-- The member of a line is what its signature declares, if nothing else keeps the line from
declaring one. -/
theorem member?_readLine_eq_some_iff {line : List Char} {m : String × Overload} :
    (readLine className code line).member? = some m ↔
      (isDeleted line || containsWord "operator".toList line) = false ∧ ∃ s,
        signature? line = some s ∧ s.declares className ∧
          m = (String.ofList s.name, s.overload code) := by
  rw [member?_readLine]
  cases isDeleted line || containsWord "operator".toList line with
  | true => simp
  | false =>
    rw [if_neg Bool.false_ne_true, Option.bind_eq_some_iff]
    simp only [member?_readSignature, Option.ite_none_right_eq_some, Option.some.injEq, true_and,
      eq_comm (a := m)]

theorem returnType_overload_eq_empty_iff (s : Signature) :
    (s.overload code).returnType = "" ↔ s.returnType = [] := by
  rw [Signature.overload, ← String.toList_eq_nil_iff, String.toList_ofList]

/-- Without a return type a signature declares nothing but constructors. -/
theorem name_eq_of_declares {s : Signature} (h : s.declares className)
    (hnil : s.returnType = []) : String.ofList s.name = className := by
  simpa [hnil] using (Bool.and_eq_true_iff.1 h).2

theorem hidesConstructor_iff {line : List Char} :
    hidesConstructor className line ↔ ∃ o, o.returnType ≠ "" ∧
      (readLine className code line).member? = some (className, o) := by
  simp only [member?_readLine_eq_some_iff, hidesConstructor, Bool.and_eq_true, Bool.not_eq_true',
    Option.any_eq_true, decide_eq_true_eq, Prod.mk.injEq]
  constructor
  · rintro ⟨hkept, s, hs, ⟨hdeclares, hname⟩, htyped⟩
    refine ⟨s.overload code, fun hnil => htyped ((returnType_overload_eq_empty_iff s).1 hnil), ?_⟩
    exact ⟨hkept, s, hs, hdeclares, hname.symm, rfl⟩
  · rintro ⟨_, htyped, hkept, s, hs, hdeclares, hname, rfl⟩
    refine ⟨hkept, s, hs, ⟨hdeclares, hname.symm⟩, fun hnil => htyped ?_⟩
    exact (returnType_overload_eq_empty_iff s).2 hnil

end

/-! ## Tables of regions -/

section

variable {className : String} {body text : List Char} {offset : Nat}

/-- A table has the overloads of its members. -/
theorem exists_mem_tableOf_iff {members : List (String × Overload)} {name : String} {o : Overload} :
    (∃ os, (tableOf members).get? name = some os ∧ o ∈ os) ↔ (name, o) ∈ members := by
  have hmem : o ∈ overloadsNamed name members ↔ (name, o) ∈ members := by
    simp [overloadsNamed]
  rw [get?_tableOf, ← hmem]
  split
  · simp [*]
  · simp

/-- The overloads in the table are those that lines outside braces declare. -/
theorem exists_overload_iff {name : String} {o : Overload} :
    (∃ os, (methodsOf className body offset text).1.get? name = some os ∧ o ∈ os) ↔
      ∃ line ∈ outerLines body,
        (readLine className (countedCode text) line).member? = some (name, o) := by
  rw [fst_methodsOf, exists_mem_tableOf_iff, membersFrom_eq_filterMap, List.mem_filterMap]
  rfl

theorem overloads_ne_nil {name : String} {os : List Overload}
    (h : (methodsOf className body offset text).1.get? name = some os) : os ≠ [] := by
  rw [fst_methodsOf, get?_tableOf] at h
  split at h
  · cases h
  · cases h
    assumption

/-- An overload without a return type has the name of the class. -/
theorem name_eq_of_returnType_eq_empty {name : String} {os : List Overload}
    (h : (methodsOf className body offset text).1.get? name = some os) {o : Overload} (ho : o ∈ os)
    (hnil : o.returnType = "") : name = className := by
  obtain ⟨line, -, hmember⟩ := exists_overload_iff.1 ⟨os, h, ho⟩
  obtain ⟨-, s, -, hdeclares, hm⟩ := member?_readLine_eq_some_iff.1 hmember
  cases hm
  exact name_eq_of_declares hdeclares ((returnType_overload_eq_empty_iff s).1 hnil)

/-- The constructors of a region are the overloads with the name of the class exactly if no line
hides one. -/
theorem separatesConstructors_iff :
    (methodsOf className body offset text).1.SeparatesConstructors className ↔
      ∀ line ∈ outerLines body, hidesConstructor className line = false := by
  constructor
  · intro hseparates line hline
    by_contra hhides
    obtain ⟨o, htyped, hmember⟩ := hidesConstructor_iff.1 (eq_true_of_ne_false hhides)
    obtain ⟨os, hos, ho⟩ := exists_overload_iff.2 ⟨line, hline, hmember⟩
    exact htyped ((hseparates className os hos o ho).2 rfl)
  · intro hshown name os hos o ho
    refine ⟨name_eq_of_returnType_eq_empty hos ho, ?_⟩
    rintro rfl
    by_contra htyped
    obtain ⟨line, hline, hmember⟩ := exists_overload_iff.1 ⟨os, hos, ho⟩
    have hhides := hidesConstructor_iff.2 ⟨o, htyped, hmember⟩
    rw [hshown line hline] at hhides
    cases hhides

end

/-- Whatever a region and its file are, an overload without a return type has the name of the class,
and the other way round exactly if no line outside braces hides a constructor. So the names of
methods that the inventory lists for a recognized class, whatever its ancestors turn out to be, are
those of the overloads that are bound, exactly if no line of its region hides a constructor. -/
theorem constructors_separated_iff (className : String) (body : List Char) (offset : Nat)
    (text : List Char) :
    let table := (methodsOf className body offset text).1
    (∀ name os, table.get? name = some os → ∀ o ∈ os, o.returnType = "" → name = className) ∧
    (table.SeparatesConstructors className ↔
      ∀ line ∈ outerLines body, hidesConstructor className line = false) ∧
    ∀ (u : SourceUnit) (c : ScriptClass) (ancestors : List String),
      (recognize u).class? = some c → c.name = className → c.body.toList = body →
      ({ c with ancestors }.ListsBoundNames ↔
        ∀ line ∈ outerLines body, hidesConstructor className line = false) := by
  intro table
  refine ⟨fun _ _ hos _ ho => name_eq_of_returnType_eq_empty hos ho, separatesConstructors_iff, ?_⟩
  intro u c ancestors hclass hname hbody
  obtain ⟨_, howner, rfl⟩ := Option.map_eq_some_iff.1 hclass
  obtain ⟨region, -, rfl⟩ := Option.map_eq_some_iff.1 howner
  obtain rfl : region.className = className := hname
  obtain rfl : region.body = body := String.toList_ofList.symm.trans hbody
  rw [ScriptClass.listsBoundNames_iff]
  · exact separatesConstructors_iff
  · exact fun _ _ hos _ ho => name_eq_of_returnType_eq_empty hos ho
  · exact fun _ _ => overloads_ne_nil

/-- A header whose class has a region with some lines. -/
def spriteHeader (lines : String) : SourceUnit :=
  { path := "sprite.h"
    includePath := "sprite.h"
    text := "class Sprite \x7b\n//= BEGIN SCRIPTABLE\n" ++ lines ++ "//= END SCRIPTABLE\n\x7d;\n" }

/-- Specifiers, attributes and a label on its own line hide no constructor. -/
theorem sprite_listsBoundNames :
    let u := spriteHeader "public:\n[[nodiscard]] explicit inline Sprite(int x);\nvoid show();\n"
    ∃ c, (recognize u).class? = some c ∧ c.methods.keys = ["Sprite", "show"] ∧ c.ListsBoundNames := by
  intro u
  have hfound : (recognize u).class?.any fun c => c.methods.keys = ["Sprite", "show"] &&
      (outerLines c.body.toList).all fun line => !hidesConstructor c.name line := by
    decide +kernel
  obtain ⟨c, hclass, hc⟩ := (Option.any_eq_true _ _).1 hfound
  simp only [Bool.and_eq_true, decide_eq_true_eq, List.all_eq_true, Bool.not_eq_true'] at hc
  obtain ⟨-, -, hlists⟩ := constructors_separated_iff c.name c.body.toList 0 []
  exact ⟨c, hclass, hc.1, (hlists u c c.ancestors hclass rfl rfl).2 hc.2⟩

/-- The constructor behind a label is a method for the binding and none for the inventory. -/
theorem sprite_hidden :
    let body := "public: Sprite();\n".toList
    let table := (methodsOf "Sprite" body 0 body).1
    let labelled : Overload := ⟨"public:", [], false, false, false⟩
    table.get? "Sprite" = some [labelled] ∧ ¬ table.SeparatesConstructors "Sprite" ∧
      ∃ c, (recognize (spriteHeader "public: Sprite();\n")).class? = some c ∧
        c.methodNames = [] ∧ c.boundMethods = [("Sprite", labelled)] ∧ ¬ c.ListsBoundNames := by
  intro body table labelled
  have hget : table.get? "Sprite" = some [labelled] := by decide +kernel
  have hfound : (recognize (spriteHeader "public: Sprite();\n")).class?.any fun c =>
      c.methodNames = [] && c.boundMethods = [("Sprite", labelled)] := by
    decide +kernel
  obtain ⟨c, hclass, hc⟩ := (Option.any_eq_true _ _).1 hfound
  rw [Bool.and_eq_true, decide_eq_true_eq, decide_eq_true_eq] at hc
  refine ⟨hget, fun hseparates => ?_, c, hclass, hc.1, hc.2, fun hlists => ?_⟩
  · have hempty := (hseparates "Sprite" _ hget _ List.mem_cons_self).2 rfl
    exact absurd hempty (by decide)
  · have hnamed := (hlists "Sprite").2 ⟨labelled, hc.2 ▸ List.mem_cons_self⟩
    rw [hc.1] at hnamed
    cases hnamed

end Header

end ChaiBind
