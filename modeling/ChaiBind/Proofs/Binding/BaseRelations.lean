import ChaiBind.Proofs.Header.DiagnosticPlaces
import ChaiBind.Proofs.Registry.ClassAncestors
import ChaiBind.Proofs.Registry.Scopes

/-!
# Relations to bases

The names of ancestors are distinct as the headers write them, but generated code writes a
registered class with its qualified name. A header may write that name too, where it is the name
of no registered class, and the routine of a class then has one relation for each way to write
it (`Aliased`).

* `relatedOf?_eq_some_iff`, `filterMap_relatedOf?_lines`: the relations are read back from the
  lines of a routine.
* `qualify_inj`: qualified names of classes tell their bare names.
* `relations_distinct_iff`: a routine relates its class to no class twice and not to itself if and
  only if no name of an ancestor is such an alias.
-/

namespace ChaiBind

open Text

/-! ## Relations in a routine -/

/-- What a text has between two others, if it starts with the one and ends with the other. -/
def between? (opening closing cs : List Char) : Option (List Char) :=
  (opening.isPrefixOf? cs).bind fun rest =>
    (closing.reverse.isPrefixOf? rest.reverse).map List.reverse

theorem between?_eq_some_iff {opening closing cs mid : List Char} :
    between? opening closing cs = some mid ↔ cs = opening ++ (mid ++ closing) := by
  simp only [between?, Option.bind_eq_some_iff, Option.map_eq_some_iff,
    List.isPrefixOf?_eq_some_iff_append_eq]
  constructor
  · rintro ⟨rest, rfl, reversed, hrest, rfl⟩
    rw [← List.reverse_reverse rest, ← hrest, List.reverse_append, List.reverse_reverse]
  · rintro rfl
    exact ⟨_, rfl, mid.reverse, by rw [List.reverse_append], List.reverse_reverse mid⟩

namespace ScriptClass

/-- How a line starts that relates a type to another. -/
def relationOpening : String := "    module->add(chaiscript::base_class<"

/-- How such a line ends. -/
def relationClosing (type : String) : String := ", " ++ (type ++ ">());")

/-- The class to which a line of a routine relates a type. -/
def relatedOf? (type line : String) : Option String :=
  (between? relationOpening.toList (relationClosing type).toList line.toList).map String.ofList

theorem relationLine_eq (type related : String) :
    relationLine type related = relationOpening ++ (related ++ relationClosing type) := by
  unfold relationLine relationOpening relationClosing
  simp only [String.append_assoc]

theorem relatedOf?_eq_some_iff {type line related : String} :
    relatedOf? type line = some related ↔ line = relationLine type related := by
  rw [relatedOf?, Option.map_eq_some_iff, relationLine_eq, ← String.toList_inj,
    String.toList_append, String.toList_append]
  constructor
  · rintro ⟨mid, hmid, rfl⟩
    rw [between?_eq_some_iff.1 hmid, String.toList_ofList]
  · intro hline
    exact ⟨related.toList, between?_eq_some_iff.2 hline, String.ofList_toList⟩

/-- A line that starts otherwise. -/
theorem relatedOf?_eq_none {type line : String}
    (h : ¬ "    module->".toList <+: line.toList) : relatedOf? type line = none := by
  rw [Option.eq_none_iff_forall_ne_some]
  intro related hrelated
  rw [relatedOf?_eq_some_iff] at hrelated
  refine h ?_
  have hopening : "    module->".toList <+: relationOpening.toList := by decide
  rw [hrelated, relationLine_eq, String.toList_append]
  exact hopening.trans (List.prefix_append _ _)

theorem filterMap_relatedOf?_bracedLines (type : String) (entries : List String)
    (terminator : String) : (bracedLines entries terminator).filterMap (relatedOf? type) = [] := by
  rw [List.filterMap_eq_nil_iff]
  unfold bracedLines
  split
  · rw [List.forall_mem_singleton]
    exact relatedOf?_eq_none (by simp)
  · simp only [List.forall_mem_append, List.forall_mem_map, List.forall_mem_singleton]
    exact ⟨⟨relatedOf?_eq_none (by simp), fun e _ => relatedOf?_eq_none (by simp)⟩,
      relatedOf?_eq_none (by simp)⟩

/-- The relations that the lines of a routine make are to the types of the ancestors, in order. -/
theorem filterMap_relatedOf?_lines (r : Registry) (c : ScriptClass) :
    (c.routine r).lines.filterMap (relatedOf? c.qualifiedName) = c.relatedTypes r := by
  have hopening : ∀ name, relatedOf? c.qualifiedName (Routine.opening name) = none := fun name =>
    relatedOf?_eq_none (by simp [Routine.opening, moduleType])
  have hstart : relatedOf? c.qualifiedName newModule = none :=
    relatedOf?_eq_none (by simp [newModule, moduleType])
  have hclass : relatedOf? c.qualifiedName ("    chaiscript::utility::add_class<" ++
      c.qualifiedName ++ ">(*module, std::string(\"" ++ c.name ++ "\"),") = none :=
    relatedOf?_eq_none (by simp)
  have hend : ["    return module;", "  \x7d"].filterMap (relatedOf? c.qualifiedName) = [] := by
    rw [List.filterMap_eq_nil_iff, List.forall_mem_cons, List.forall_mem_singleton]
    exact ⟨relatedOf?_eq_none (by decide), relatedOf?_eq_none (by decide)⟩
  have hrelations : ((c.relatedTypes r).map (relationLine c.qualifiedName)).filterMap
      (relatedOf? c.qualifiedName) = c.relatedTypes r := by
    rw [List.filterMap_map]
    have hall : relatedOf? c.qualifiedName ∘ relationLine c.qualifiedName = some := by
      funext related
      exact relatedOf?_eq_some_iff.2 rfl
    rw [hall, List.filterMap_some]
  simp only [Routine.lines, routine, List.filterMap_append, filterMap_relatedOf?_bracedLines,
    hrelations, hend, List.filterMap_cons, List.filterMap_nil, hopening, hstart, hclass,
    List.nil_append, List.append_nil]

end ScriptClass

/-! ## Qualified names -/

/-- A name that can be told from its qualified form. -/
def IsBare (name : String) : Prop := ':' ∉ name.toList

theorem takeWhile_reverse_qualify {scope : Option String} {name : String} (h : IsBare name) :
    (qualify scope name).toList.reverse.takeWhile (· ≠ ':') = name.toList.reverse := by
  have hall : ∀ c ∈ name.toList.reverse, decide (c ≠ ':') = true := fun c hc =>
    decide_eq_true fun he => h (he ▸ List.mem_reverse.1 hc)
  cases scope with
  | none => exact List.takeWhile_eq_self_iff.2 hall
  | some s =>
    show (s ++ "::" ++ name).toList.reverse.takeWhile _ = _
    rw [String.toList_append, String.toList_append, List.reverse_append,
      List.takeWhile_append_of_pos hall, List.reverse_append]
    simp

theorem qualify_inj {scope scope' : Option String} {name name' : String} (h : IsBare name)
    (h' : IsBare name') (heq : qualify scope name = qualify scope' name') : name = name' := by
  have hnames := @takeWhile_reverse_qualify scope' _ h'
  rw [← heq, takeWhile_reverse_qualify h] at hnames
  exact String.toList_inj.1 (List.reverse_injective hnames)

/-! ## Names of classes -/

theorem isBare_of_isIdentifier {name : String} (h : IsIdentifier name.toList) : IsBare name := by
  intro hcolon
  have hword := h.isWord_of_mem hcolon
  rw [show isWord ':' = false by decide] at hword
  cases hword

/-- The classes that are registered in a run have bare names. -/
theorem isBare_of_mem_classes {units : List SourceUnit} {reg : Registry} {ds : List Diagnostic}
    (h : (Draft.ofList (units.map recognize)).build = .ok (reg, ds)) {c : ScriptClass}
    (hc : c ∈ reg.classes.values) : IsBare c.name := by
  obtain ⟨u, -, c₀, ancestors, hclass, rfl⟩ := exists_class?_of_mem_classes h hc
  have hname : IsIdentifier c₀.name.toList := isIdentifier_of_class? hclass
  exact isBare_of_isIdentifier hname

/-! ## Relations of a class -/

/-- The class or one of its ancestors, if it is registered, is an ancestor by its qualified name
too. -/
def Aliased (reg : Registry) (c : ScriptClass) : Prop :=
  ∃ d ∈ reg.classes.values, (d = c ∨ d.name ∈ c.ancestors) ∧ d.qualifiedName ∈ c.ancestors ∧
    reg.classes.get? d.qualifiedName = none

namespace Registry

variable {reg : Registry}

theorem Keyed.resolve_name (hreg : reg.Keyed) {d : ScriptClass} (hd : d ∈ reg.classes.values) :
    reg.resolve d.name = d.qualifiedName := by
  rw [resolve, hreg.classes.mem_values_iff.1 hd]

theorem resolve_of_none {name : String} (h : reg.classes.get? name = none) :
    reg.resolve name = name := by
  rw [resolve, h]

/-- If generated code does not tell two names apart, then one of them is the qualified name of the
class that has the other as its name. -/
theorem Keyed.exists_of_resolve_eq (hreg : reg.Keyed)
    (hbare : ∀ d ∈ reg.classes.values, IsBare d.name) {a b : String} (hne : a ≠ b)
    (heq : reg.resolve a = reg.resolve b) :
    ∃ d ∈ reg.classes.values, reg.classes.get? d.qualifiedName = none ∧
      ((a = d.name ∧ b = d.qualifiedName) ∨ (b = d.name ∧ a = d.qualifiedName)) := by
  have hfiled : ∀ {name d}, reg.classes.get? name = some d →
      d ∈ reg.classes.values ∧ name = d.name := fun {name d} hd => by
    have hname : name = d.name := hreg.classes _ (Table.get?_eq_some_iff.1 hd)
    exact ⟨hreg.classes.mem_values_iff.2 (hname ▸ hd), hname⟩
  cases ha : reg.classes.get? a with
  | none =>
    rw [resolve_of_none ha] at heq
    cases hb : reg.classes.get? b with
    | none =>
      rw [resolve_of_none hb] at heq
      exact absurd heq hne
    | some d =>
      obtain ⟨hd, rfl⟩ := hfiled hb
      rw [hreg.resolve_name hd] at heq
      exact ⟨d, hd, heq ▸ ha, .inr ⟨rfl, heq⟩⟩
  | some d =>
    obtain ⟨hd, rfl⟩ := hfiled ha
    rw [hreg.resolve_name hd] at heq
    cases hb : reg.classes.get? b with
    | none =>
      rw [resolve_of_none hb] at heq
      exact ⟨d, hd, heq ▸ hb, .inl ⟨rfl, heq.symm⟩⟩
    | some e =>
      obtain ⟨he, rfl⟩ := hfiled hb
      rw [hreg.resolve_name he] at heq
      exact absurd (qualify_inj (hbare d hd) (hbare e he) heq) hne

end Registry

/-- The relations that the routine of a class makes, read back from its lines, are to distinct
classes other than itself if and only if neither the class nor a registered ancestor is also named
as an ancestor by its qualified name. -/
theorem relations_distinct_iff {units : List SourceUnit} {guardName : String} {out : Generated}
    (h : generate units guardName = .ok out) {c : ScriptClass}
    (hc : c ∈ out.registry.classes.values) :
    let related := (c.routine out.registry).lines.filterMap
      (ScriptClass.relatedOf? c.qualifiedName)
    related.Nodup ∧ c.qualifiedName ∉ related ↔ ¬ Aliased out.registry c := by
  obtain ⟨hbuild, -⟩ := generate_eq_ok_iff.1 h
  have hkeyed := Draft.keyed_ofList (units.map recognize)
  have hreg := Draft.keyed_build hkeyed hbuild
  obtain ⟨resolved, hancestors⟩ := Draft.hasAncestors_of_build hkeyed hbuild
  have hbare := fun d => isBare_of_mem_classes (c := d) hbuild
  have hself := hreg.classes.mem_values_iff.1 hc
  intro related
  have hrelated : related = c.ancestors.map out.registry.resolve :=
    c.filterMap_relatedOf?_lines out.registry
  rw [hrelated]
  constructor
  · rintro ⟨hnodup, hnotMem⟩ ⟨d, hd, hfrom, halias, hnone⟩
    have hresolve := Registry.resolve_of_none hnone
    rcases hfrom with rfl | hname
    · exact hnotMem (List.mem_map.2 ⟨_, halias, hresolve⟩)
    · have hsame := List.inj_on_of_nodup_map hnodup hname halias
        (by rw [hreg.resolve_name hd, hresolve])
      have hget := hreg.classes.mem_values_iff.1 hd
      rw [hsame, hnone] at hget
      cases hget
  · intro halias
    refine ⟨(hancestors.nodup hc).map_on fun a ha b hb heq => ?_, fun hmem => ?_⟩
    · by_contra hne
      obtain ⟨d, hd, hnone, ⟨rfl, rfl⟩ | ⟨rfl, rfl⟩⟩ := hreg.exists_of_resolve_eq hbare hne heq
      · exact halias ⟨d, hd, .inr ha, hb, hnone⟩
      · exact halias ⟨d, hd, .inr hb, ha, hnone⟩
    · obtain ⟨a, ha, heq⟩ := List.mem_map.1 hmem
      have hne : a ≠ c.name := fun hsame => hancestors.name_notMem hreg hc (hsame ▸ ha)
      rw [← hreg.resolve_name hc] at heq
      obtain ⟨d, hd, hnone, ⟨-, hname⟩ | ⟨hname, rfl⟩⟩ := hreg.exists_of_resolve_eq hbare hne heq
      · rw [← hname, hself] at hnone
        cases hnone
      · have hget := hreg.classes.mem_values_iff.1 hd
        rw [← hname, hself] at hget
        cases hget
        exact halias ⟨c, hc, .inl rfl, ha, hnone⟩

/-- A header that declares a class with some bases in a namespace. -/
def derivedHeader (path name bases : String) : SourceUnit :=
  ⟨path, path, "//= SCRIPTABLE BASES " ++ bases ++ "\nnamespace Game \x7b\nclass " ++ name ++
    " \x7b\n//= BEGIN SCRIPTABLE\n//= END SCRIPTABLE\n\x7d;\n\x7d\n"⟩

/-- A class whose bases have one name each. -/
theorem relations_distinct_foo :
    ∃ out c, generate [derivedHeader "a.h" "Foo" "Bar Node", derivedHeader "b.h" "Bar" ""] "G" =
        .ok out ∧ c ∈ out.registry.classes.values ∧ ¬ Aliased out.registry c ∧
      c.qualifiedName = "Game::Foo" ∧
      (c.routine out.registry).lines.filterMap (ScriptClass.relatedOf? c.qualifiedName) =
        ["Game::Bar", "Node"] := by
  obtain ⟨out, c, h, hc, hancestors, hname⟩ : ∃ out c, generate [derivedHeader "a.h" "Foo"
      "Bar Node", derivedHeader "b.h" "Bar" ""] "G" = .ok out ∧
      c ∈ out.registry.classes.values ∧ c.relatedTypes out.registry = ["Game::Bar", "Node"] ∧
      c.qualifiedName = "Game::Foo" :=
    ⟨_, _, rfl, List.mem_cons_self, rfl, rfl⟩
  have hrelated := c.filterMap_relatedOf?_lines out.registry
  rw [hancestors] at hrelated
  refine ⟨out, c, h, hc, (relations_distinct_iff h hc).1 ?_, hname, hrelated⟩
  rw [hrelated, hname]
  decide

/-- A class that names one base in two ways is related to it twice, and one that names itself with
its namespace is its own base. -/
theorem exists_related_twice :
    (∃ out c, generate [derivedHeader "a.h" "Foo" "Bar Game::Bar", derivedHeader "b.h" "Bar" ""] "G" =
        .ok out ∧ c ∈ out.registry.classes.values ∧
      (c.routine out.registry).lines.filterMap (ScriptClass.relatedOf? c.qualifiedName) =
        ["Game::Bar", "Game::Bar"]) ∧
    ∃ out c, generate [derivedHeader "a.h" "Foo" "Game::Foo"] "G" = .ok out ∧
      c ∈ out.registry.classes.values ∧ c.qualifiedName = "Game::Foo" ∧
      (c.routine out.registry).lines.filterMap (ScriptClass.relatedOf? c.qualifiedName) =
        ["Game::Foo"] := by
  constructor
  · obtain ⟨out, c, h, hc, hrelated⟩ : ∃ out c, generate [derivedHeader "a.h" "Foo" "Bar Game::Bar",
        derivedHeader "b.h" "Bar" ""] "G" = .ok out ∧ c ∈ out.registry.classes.values ∧
        c.relatedTypes out.registry = ["Game::Bar", "Game::Bar"] :=
      ⟨_, _, rfl, List.mem_cons_self, rfl⟩
    exact ⟨out, c, h, hc, (c.filterMap_relatedOf?_lines _).trans hrelated⟩
  · obtain ⟨out, c, h, hc, hrelated, hname⟩ : ∃ out c, generate [derivedHeader "a.h" "Foo"
        "Game::Foo"] "G" = .ok out ∧ c ∈ out.registry.classes.values ∧
        c.relatedTypes out.registry = ["Game::Foo"] ∧ c.qualifiedName = "Game::Foo" :=
      ⟨_, _, rfl, List.mem_cons_self, rfl, rfl⟩
    exact ⟨out, c, h, hc, hname, (c.filterMap_relatedOf?_lines _).trans hrelated⟩

end ChaiBind
