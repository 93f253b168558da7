import ChaiBind.Binding.Class
import Mathlib.Data.List.Nodup
import Mathlib.Data.List.Perm.Basic

/-!
# Names in a lambda

The lambda of a static method declares a name for each parameter: the declared one, or one with the
position of the parameter as its number. Numbers never clash with each other, but a parameter may be
declared under the numbered name of another, which has none (`TakesNumber`).

* `perm_forwardingNamesFrom`: the names of a lambda are the declared ones and the numbered ones.
* `lambda_distinct_iff`: a lambda declares no name twice exactly if the declared names are distinct
  and none of them is the numbered name of a parameter.
-/

namespace ChaiBind

namespace Param

/-- The name that stands in for that of the parameter at a position. -/
def numberedName (i : Nat) : String := "arg" ++ toString i

theorem numberedName_injective : Function.Injective numberedName := by
  intro i j h
  have hdigits : Nat.toDigits 10 i = Nat.toDigits 10 j := by
    have hlist := congrArg String.toList h
    simp only [numberedName, String.toList_append, Nat.toString_eq_repr, Nat.toList_repr] at hlist
    exact List.append_cancel_left hlist
  simpa using congrArg (Nat.ofDigitChars 10 · 0) hdigits

/-- The names that parameters are declared under. -/
def declaredNames (ps : List Param) : List String := ps.filterMap (·.name)

/-- The positions of the parameters without a name, given that of the first parameter. -/
def unnamedFrom (i : Nat) : List Param → List Nat
  | [] => []
  | p :: ps => if p.name = none then i :: unnamedFrom (i + 1) ps else unnamedFrom (i + 1) ps

theorem mem_unnamedFrom {i n : Nat} {ps : List Param} :
    n ∈ unnamedFrom i ps ↔ ∃ k p, n = i + k ∧ ps[k]? = some p ∧ p.name = none := by
  induction ps generalizing i with
  | nil => simp [unnamedFrom]
  | cons p ps ih =>
    have hmem : n ∈ unnamedFrom i (p :: ps) ↔
        (n = i ∧ p.name = none) ∨ n ∈ unnamedFrom (i + 1) ps := by
      rw [unnamedFrom]
      split <;> simp [*]
    rw [hmem, ih]
    constructor
    · rintro (⟨rfl, hp⟩ | ⟨k, q, rfl, hq, hname⟩)
      · exact ⟨0, p, rfl, rfl, hp⟩
      · exact ⟨k + 1, q, by omega, hq, hname⟩
    · rintro ⟨_ | k, q, rfl, hq, hname⟩
      · obtain rfl := Option.some.inj hq
        exact .inl ⟨rfl, hname⟩
      · exact .inr ⟨k, q, by omega, hq, hname⟩

theorem nodup_unnamedFrom (i : Nat) (ps : List Param) : (unnamedFrom i ps).Nodup := by
  induction ps generalizing i with
  | nil => exact List.nodup_nil
  | cons p ps ih =>
    rw [unnamedFrom]
    split
    · refine List.nodup_cons.2 ⟨fun hmem => ?_, ih (i + 1)⟩
      obtain ⟨k, q, hk, -⟩ := mem_unnamedFrom.1 hmem
      omega
    · exact ih (i + 1)

/-- The names of a lambda are the declared ones and the numbered ones of all parameters without a
name. -/
theorem perm_forwardingNamesFrom (i : Nat) (ps : List Param) :
    (forwardingNamesFrom i ps).Perm (declaredNames ps ++ (unnamedFrom i ps).map numberedName) := by
  induction ps generalizing i with
  | nil => exact List.Perm.refl []
  | cons p ps ih =>
    cases hname : p.name with
    | none =>
      have hdeclared : declaredNames (p :: ps) = declaredNames ps :=
        List.filterMap_cons_none hname
      rw [forwardingNamesFrom, unnamedFrom, if_pos hname, hdeclared, hname, Option.getD_none]
      exact ((ih (i + 1)).cons (numberedName i)).trans List.perm_middle.symm
    | some name =>
      have hdeclared : declaredNames (p :: ps) = name :: declaredNames ps :=
        List.filterMap_cons_some hname
      rw [forwardingNamesFrom, unnamedFrom, if_neg (by simp [hname]), hdeclared, hname,
        Option.getD_some]
      exact (ih (i + 1)).cons name

/-- A parameter is declared under the numbered name of one that has no name. -/
def TakesNumber (ps : List Param) : Prop :=
  ∃ i p, ps[i]? = some p ∧ p.name = none ∧ numberedName i ∈ declaredNames ps

theorem nodup_forwardingNames_iff (ps : List Param) :
    (forwardingNames ps).Nodup ↔ (declaredNames ps).Nodup ∧ ¬ TakesNumber ps := by
  have hnumbered : ((unnamedFrom 0 ps).map numberedName).Nodup :=
    (nodup_unnamedFrom 0 ps).map numberedName_injective
  have htakes : TakesNumber ps ↔
      ∃ name ∈ declaredNames ps, name ∈ (unnamedFrom 0 ps).map numberedName := by
    simp only [TakesNumber, List.mem_map, mem_unnamedFrom, Nat.zero_add]
    constructor
    · rintro ⟨i, p, hp, hname, hmem⟩
      exact ⟨_, hmem, i, ⟨i, p, rfl, hp, hname⟩, rfl⟩
    · rintro ⟨_, hmem, i, ⟨_, p, rfl, hp, hname⟩, rfl⟩
      exact ⟨i, p, hp, hname, hmem⟩
  rw [forwardingNames, (perm_forwardingNamesFrom 0 ps).nodup_iff, List.nodup_append, htakes]
  constructor
  · rintro ⟨hdeclared, -, hdisjoint⟩
    exact ⟨hdeclared, fun ⟨name, hmem, hmem'⟩ => hdisjoint name hmem name hmem' rfl⟩
  · rintro ⟨hdeclared, hfree⟩
    refine ⟨hdeclared, hnumbered, ?_⟩
    rintro name hmem _ hmem' rfl
    exact hfree ⟨name, hmem, hmem'⟩

/-- The types and the names of the parameters that a lambda declares. -/
def lambdaParams (ps : List Param) : List (String × String) :=
  (ps.map (·.type)).zip (forwardingNames ps)

theorem map_snd_lambdaParams (ps : List Param) :
    (lambdaParams ps).map Prod.snd = forwardingNames ps := by
  have hlength : (forwardingNames ps).length = (ps.map (·.type)).length := by
    rw [forwardingNames, length_forwardingNamesFrom, List.length_map]
  exact List.map_snd_zip (Nat.le_of_eq hlength)

end Param

theorem Overload.callable_of_isStatic {o : Overload} (h : o.isStatic) (type name : String) :
    o.callable type name = "[](" ++ commaSeparated ((type ++ "& /*self*/") ::
        (Param.lambdaParams o.params).map fun d => d.1 ++ " " ++ d.2) ++ ") \x7b return " ++ type ++
      "::" ++ name ++ "(" ++ commaSeparated ((Param.lambdaParams o.params).map Prod.snd) ++
      "); \x7d" := by
  have hdeclared : (Param.lambdaParams o.params).map (fun d => d.1 ++ " " ++ d.2) =
      (o.params.zip (Param.forwardingNames o.params)).map fun d => d.1.type ++ " " ++ d.2 := by
    rw [Param.lambdaParams, List.zip_map_left, List.map_map]
    rfl
  rw [callable, if_pos h, Param.map_snd_lambdaParams, hdeclared]
  rfl

/-- The names that stand for the parameters of a list are distinct if and only if those that it
declares are and none of them is the numbered name of a parameter without a name. They are the names
that the lambda of a static method declares and passes on. -/
theorem lambda_distinct_iff (text : List Char) :
    let ps := Param.ofList text
    ((Param.forwardingNames ps).Nodup ↔
      (Param.declaredNames ps).Nodup ∧ ¬ Param.TakesNumber ps) ∧
    ∀ (o : Overload) (type name : String), o.isStatic → o.params = ps →
      ∃ declared : List (String × String), declared.map Prod.snd = Param.forwardingNames ps ∧
        o.callable type name = "[](" ++ commaSeparated ((type ++ "& /*self*/") ::
            declared.map fun d => d.1 ++ " " ++ d.2) ++ ") \x7b return " ++ type ++ "::" ++ name ++
          "(" ++ commaSeparated (declared.map Prod.snd) ++ "); \x7d" := by
  intro ps
  refine ⟨Param.nodup_forwardingNames_iff ps, fun o type name hstatic hparams => ?_⟩
  refine ⟨Param.lambdaParams o.params, ?_, o.callable_of_isStatic hstatic type name⟩
  rw [Param.map_snd_lambdaParams, hparams]

/-- A static method with some parameters. -/
def factory (params : String) : Overload := ⟨"Foo", Param.ofList params.toList, false, true, false⟩

/-- Parameters with and without names, of which one bears the number of no other. -/
theorem factory_distinct :
    let text := "int arg0, const Key&, float, bool arg4".toList
    let o := factory "int arg0, const Key&, float, bool arg4"
    o.isStatic ∧ o.params = Param.ofList text ∧
      (Param.declaredNames o.params).Nodup ∧ ¬ Param.TakesNumber o.params ∧
      ∃ declared : List (String × String), declared.map Prod.snd = ["arg0", "arg1", "arg2", "arg4"] ∧
        o.callable "Foo" "create" = "[](" ++ commaSeparated (("Foo" ++ "& /*self*/") ::
            declared.map fun d => d.1 ++ " " ++ d.2) ++ ") \x7b return " ++ "Foo" ++ "::" ++
          "create" ++ "(" ++ commaSeparated (declared.map Prod.snd) ++ "); \x7d" := by
  intro text o
  have hnames : Param.forwardingNames (Param.ofList text) = ["arg0", "arg1", "arg2", "arg4"] := by
    decide
  obtain ⟨hiff, hlambda⟩ := lambda_distinct_iff text
  obtain ⟨hdeclared, hfree⟩ := hiff.1 (by rw [hnames]; decide)
  obtain ⟨declared, hdeclare, hcallable⟩ := hlambda o "Foo" "create" rfl rfl
  exact ⟨rfl, rfl, hdeclared, hfree, declared, hdeclare.trans hnames, hcallable⟩

/-- The second parameter is numbered as the first one is called. -/
theorem factory_clashes :
    let o := factory "int arg1, int"
    (Param.declaredNames o.params).Nodup ∧ ¬ (Param.forwardingNames o.params).Nodup ∧
      o.callable "Foo" "create" =
        "[](Foo& /*self*/, int arg1, int arg1) \x7b return Foo::create(arg1, arg1); \x7d" := by
  decide

end ChaiBind
