import ChaiBind.Binding.Header
import ChaiBind.Proofs.Header.DeclaredNames
import ChaiBind.Proofs.Registry.Replacement

/-!
# Namespaces in use

A namespace goes into a registry with the first declaration that is made in it and
stays there, also when every declaration in it has been replaced by one from
another namespace. The header then opens a namespace that no header it includes
declares. This happens to a namespace if and only if none of its declarations is
the last one of its key (`scopes_in_use_iff`).
-/

namespace ChaiBind

namespace Registry

/-- A class or an enumeration of the registry is declared in the namespace. -/
def Uses (r : Registry) (scope : String) : Prop :=
  (∃ c ∈ r.classes.values, c.scope = some scope) ∨ ∃ e ∈ r.enums.values, e.scope = some scope

/-- The headers of classes and enumerations are included. -/
theorem mem_includes {r : Registry} {path : String} :
    path ∈ r.includes ↔
      (∃ c ∈ r.classes.values, c.includePath = path) ∨
        ∃ e ∈ r.enums.values, e.includePath = path := by
  rw [includes, List.mem_eraseDups, List.mem_append, List.mem_map, List.mem_map]

end Registry

/-- A class or an enumeration of the namespace is the last declaration of its key. -/
def ScopeSurvives (rs : List Recognized) (scope : String) : Prop :=
  (∃ c, IsLast (·.name) (rs.flatMap (·.class?.toList)) c ∧ c.scope = some scope) ∨
    ∃ e, IsLast (·.qualifiedName) (rs.flatMap (·.enums)) e ∧ e.scope = some scope

namespace Draft

variable {d : Draft} {r : Registry} {ds : List Diagnostic}

/-- Building changes the ancestors of a class and nothing else of it. -/
theorem exists_class_iff_of_build (h : d.build = .ok (r, ds)) {p : ScriptClass → Prop}
    (hp : ∀ c ancestors, p { c with ancestors } ↔ p c) :
    (∃ c ∈ r.classes.values, p c) ↔ ∃ c ∈ d.registry.classes.values, p c := by
  obtain ⟨ancestors, -, rfl, -⟩ := build_eq_ok_iff.1 h
  simp only [Table.values, Table.mapValues, List.mem_map, exists_exists_and_eq_and, hp]

theorem enums_of_build (h : d.build = .ok (r, ds)) : r.enums = d.registry.enums := by
  obtain ⟨ancestors, -, rfl, -⟩ := build_eq_ok_iff.1 h
  rfl

theorem scopes_of_build (h : d.build = .ok (r, ds)) : r.scopes = d.registry.scopes := by
  obtain ⟨ancestors, -, rfl, -⟩ := build_eq_ok_iff.1 h
  rfl

/-- A namespace is in use if one of its declarations stays. -/
theorem uses_iff_of_build {rs : List Recognized} (h : (ofList rs).build = .ok (r, ds))
    (scope : String) : r.Uses scope ↔ ScopeSurvives rs scope := by
  rw [Registry.Uses, exists_class_iff_of_build h fun _ _ => Iff.rfl, enums_of_build h]
  simp only [mem_values_classes, mem_values_enums, ScopeSurvives]

end Draft

/-! ## Declarations of a header -/

open Header in
theorem scope_of_class? {u : SourceUnit} {c : ScriptClass} (h : (recognize u).class? = some c) :
    c.scope = namespaceOf u.text.toList ∧ c.includePath = u.includePath := by
  obtain ⟨_, howner, rfl⟩ := Option.map_eq_some_iff.1 h
  obtain ⟨region, -, rfl⟩ := Option.map_eq_some_iff.1 howner
  exact ⟨rfl, rfl⟩

open Header in
theorem scope_of_mem_enums {u : SourceUnit} {e : Enumeration} (h : e ∈ (recognize u).enums) :
    e.scope = namespaceOf u.text.toList ∧ e.includePath = u.includePath := by
  obtain ⟨_, _, -, -, -, hscope, hinclude, -⟩ := exists_declaration_of_mem_enums h
  exact ⟨hscope, hinclude⟩

theorem IsLast.mem {α κ : Type} {key : α → κ} {xs : List α} {x : α} (h : IsLast key xs x) :
    x ∈ xs := by
  obtain ⟨before, after, rfl, -⟩ := h
  exact List.mem_append_right before List.mem_cons_self

/-- A class that is registered in a run is that of a header, but for its ancestors. -/
theorem exists_class?_of_mem_classes {units : List SourceUnit} {r : Registry}
    {ds : List Diagnostic} (h : (Draft.ofList (units.map recognize)).build = .ok (r, ds))
    {c : ScriptClass} (hc : c ∈ r.classes.values) :
    ∃ u ∈ units, ∃ c₀ ancestors, (recognize u).class? = some c₀ ∧ c = { c₀ with ancestors } := by
  obtain ⟨c₀, hc₀, ancestors, rfl⟩ := (Draft.exists_class_iff_of_build h
    (p := fun c' => ∃ ancestors, c = { c' with ancestors }) fun _ _ => Iff.rfl).1
      ⟨c, hc, c.ancestors, rfl⟩
  obtain ⟨_, hr, hclass⟩ := List.mem_flatMap.1 (Draft.mem_values_classes.1 hc₀).mem
  obtain ⟨u, hu, rfl⟩ := List.mem_map.1 hr
  exact ⟨u, hu, c₀, ancestors, Option.mem_toList.1 hclass, rfl⟩

theorem exists_mem_enums_of_mem_enums {units : List SourceUnit} {r : Registry}
    {ds : List Diagnostic} (h : (Draft.ofList (units.map recognize)).build = .ok (r, ds))
    {e : Enumeration} (he : e ∈ r.enums.values) : ∃ u ∈ units, e ∈ (recognize u).enums := by
  rw [Draft.enums_of_build h] at he
  obtain ⟨_, hr, henum⟩ := List.mem_flatMap.1 (Draft.mem_values_enums.1 he).mem
  obtain ⟨u, hu, rfl⟩ := List.mem_map.1 hr
  exact ⟨u, hu, henum⟩

/-- A namespace in use is that of a header that the generated one includes. -/
theorem exists_included_of_uses {units : List SourceUnit} {r : Registry} {ds : List Diagnostic}
    (h : (Draft.ofList (units.map recognize)).build = .ok (r, ds)) {scope : String}
    (huse : r.Uses scope) :
    ∃ u ∈ units, Header.namespaceOf u.text.toList = some scope ∧ u.includePath ∈ r.includes := by
  have hsurvives := (Draft.uses_iff_of_build h scope).1 huse
  rcases hsurvives with ⟨c, hc, hscope⟩ | ⟨e, he, hscope⟩
  · obtain ⟨_, hr, hclass⟩ := List.mem_flatMap.1 hc.mem
    obtain ⟨u, hu, rfl⟩ := List.mem_map.1 hr
    obtain ⟨hscope', hpath⟩ := scope_of_class? (Option.mem_toList.1 hclass)
    refine ⟨u, hu, hscope' ▸ hscope, Registry.mem_includes.2 (.inl ?_)⟩
    rw [Draft.exists_class_iff_of_build h fun _ _ => Iff.rfl]
    exact ⟨c, Draft.mem_values_classes.2 hc, hpath⟩
  · obtain ⟨_, hr, henum⟩ := List.mem_flatMap.1 he.mem
    obtain ⟨u, hu, rfl⟩ := List.mem_map.1 hr
    obtain ⟨hscope', hpath⟩ := scope_of_mem_enums henum
    refine ⟨u, hu, hscope' ▸ hscope, Registry.mem_includes.2 (.inr ⟨e, ?_, hpath⟩)⟩
    rw [Draft.enums_of_build h]
    exact Draft.mem_values_enums.2 he

/-- Every namespace of a registry is that of one of its declarations if and only if every header
that declares something in a namespace leaves there, or another one leaves there, a declaration
that no later one replaces. Then each namespace that the generated header uses is declared by a
header that it includes. -/
theorem scopes_in_use_iff {units : List SourceUnit} {r : Registry} {ds : List Diagnostic}
    (h : (Draft.ofList (units.map recognize)).build = .ok (r, ds)) :
    ((∀ scope ∈ r.scopes, r.Uses scope) ↔
      ∀ u ∈ units, (recognize u).contributes →
        ∀ scope ∈ Header.namespaceOf u.text.toList, ScopeSurvives (units.map recognize) scope) ∧
    ((∀ scope ∈ r.scopes, r.Uses scope) →
      ∀ line ∈ r.scopeLines, ∃ u ∈ units, ∃ scope ∈ Header.namespaceOf u.text.toList,
        line = "  using namespace " ++ scope ++ ";" ∧
          "#include \"" ++ u.includePath ++ "\"" ∈ r.includeLines) := by
  have hscopes : ∀ scope, scope ∈ r.scopes ↔
      ∃ u ∈ units, (recognize u).contributes ∧ Header.namespaceOf u.text.toList = some scope := by
    intro scope
    rw [Draft.scopes_of_build h, Draft.mem_scopes_ofList]
    simp only [List.mem_map, exists_exists_and_eq_and]
    rfl
  constructor
  · constructor
    · intro huse u hu hcontributes scope hscope
      have hmem : scope ∈ r.scopes := (hscopes scope).2 ⟨u, hu, hcontributes, hscope⟩
      exact (Draft.uses_iff_of_build h scope).1 (huse scope hmem)
    · intro hsurvive scope hmem
      obtain ⟨u, hu, hcontributes, hscope⟩ := (hscopes scope).1 hmem
      exact (Draft.uses_iff_of_build h scope).2 (hsurvive u hu hcontributes scope hscope)
  · intro huse line hline
    obtain ⟨scope, hmem, rfl⟩ := List.mem_map.1 hline
    obtain ⟨u, hu, hscope, hincluded⟩ := exists_included_of_uses h (huse scope hmem)
    refine ⟨u, hu, scope, hscope, rfl, ?_⟩
    exact List.mem_append_right _ (List.mem_map_of_mem hincluded)

/-- A header that declares a class in a namespace, and something else after it. -/
def classHeader (path scope name rest : String) : SourceUnit :=
  ⟨path, path, "namespace " ++ scope ++ " \x7b\nclass " ++ name ++
    " \x7b\n//= BEGIN SCRIPTABLE\n//= END SCRIPTABLE\n\x7d;\n" ++ rest ++ "\x7d\n"⟩

set_option maxRecDepth 2000 in
/-- The class of one namespace is replaced by that of another, but an enumeration stays. -/
theorem scopes_in_use_sprite :
    let units := [classHeader "a.h" "A" "Sprite" "//= SCRIPTABLE ENUM\nenum Color \x7b RED \x7d;\n",
      classHeader "b.h" "B" "Sprite" ""]
    ∃ r ds, (Draft.ofList (units.map recognize)).build = .ok (r, ds) ∧ r.scopes = ["A", "B"] ∧
      r.classes.values.map (·.scope) = [some "B"] ∧ ∀ scope ∈ r.scopes, r.Uses scope := by
  intro units
  obtain ⟨r, ds, h, hscopes, hclasses⟩ : ∃ r ds,
      (Draft.ofList (units.map recognize)).build = .ok (r, ds) ∧ r.scopes = ["A", "B"] ∧
        r.classes.values.map (·.scope) = [some "B"] := ⟨_, _, rfl, rfl, rfl⟩
  refine ⟨r, ds, h, hscopes, hclasses, (scopes_in_use_iff h).1.2 ?_⟩
  have hcolor : ScopeSurvives (units.map recognize) "A" :=
    .inr ⟨_, ⟨[], [], rfl, by simp⟩, rfl⟩
  have hsprite : ScopeSurvives (units.map recognize) "B" :=
    .inl ⟨_, ⟨[_], [], rfl, by simp⟩, rfl⟩
  have hscope : ∀ u ∈ units, ∀ scope ∈ Header.namespaceOf u.text.toList, scope = "A" ∨ scope = "B" := by
    decide
  intro u hu _ scope hmem
  rcases hscope u hu scope hmem with rfl | rfl
  · exact hcolor
  · exact hsprite

/-- A namespace stays in a registry when its only declaration has been replaced. -/
theorem exists_scope_not_in_use :
    ∃ r ds, (Draft.ofList ([classHeader "a.h" "A" "Sprite" "", classHeader "b.h" "B" "Sprite" ""].map
        recognize)).build = .ok (r, ds) ∧
      "A" ∈ r.scopes ∧ r.includes = ["b.h"] ∧ ¬ r.Uses "A" := by
  refine ⟨_, _, rfl, by decide, rfl, ?_⟩
  rintro (⟨c, hc, hscope⟩ | ⟨e, he, hscope⟩)
  · obtain rfl := List.mem_singleton.1 hc
    revert hscope
    decide
  · cases he

end ChaiBind
