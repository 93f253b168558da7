import ChaiBind.Proofs.Registry.Keys
import Mathlib.Data.List.Nodup
import Mathlib.Data.List.Count

/-!
# Names of routines

A class gives its routine its bare name, under which it is filed, so that no two
classes share a routine. An enumeration gives its routine its name without the
namespace and with its scopes run together; since it is filed under its qualified
name, two enumerations may clash, and an enumeration may clash with a class.
`Registry.NamesApart` says that none do.

* `count_headerLines`: a header holds the line with which a definition begins as
  often as there are routines of that name.
* `routines_distinct_iff`: the routines that a run generates have distinct names,
  and its header defines none twice, if and only if the names are apart.
-/

namespace ChaiBind

namespace Registry

/-- No two enumerations have the same name once their scopes are run together, and none has the
name of a class then. -/
structure NamesApart (r : Registry) : Prop where
  enums : (r.enums.values.map (·.plainName)).Nodup
  classes : ∀ e ∈ r.enums.values, ∀ c ∈ r.classes.values, e.plainName ≠ c.name

/-- A routine is named for a plain name. -/
def routineNameOf (name : String) : String := "get" ++ name ++ "Module"

theorem routineNameOf_inj {a b : String} : routineNameOf a = routineNameOf b ↔ a = b := by
  refine ⟨fun h => ?_, fun h => h ▸ rfl⟩
  simpa [routineNameOf, ← String.toList_inj] using h

theorem map_name_routines (r : Registry) :
    r.routines.map (·.name) =
      (r.enums.values.map (·.plainName) ++ r.classes.values.map (·.name)).map routineNameOf := by
  simp only [routines, List.map_append, List.map_map]
  rfl

theorem nodup_map_name_routines {r : Registry} (h : r.Keyed) :
    (r.routines.map (·.name)).Nodup ↔ r.NamesApart := by
  rw [map_name_routines, List.nodup_map_iff fun _ _ => routineNameOf_inj.1, List.nodup_append]
  constructor
  · rintro ⟨henums, -, hapart⟩
    exact ⟨henums, fun e he c hc => hapart _ (List.mem_map_of_mem he) _ (List.mem_map_of_mem hc)⟩
  · rintro ⟨henums, hapart⟩
    refine ⟨henums, h.classes.nodup_map_values, fun a ha b hb => ?_⟩
    obtain ⟨e, he, rfl⟩ := List.mem_map.1 ha
    obtain ⟨c, hc, rfl⟩ := List.mem_map.1 hb
    exact hapart e he c hc

end Registry

/-! ## Definitions in the header

The third character of a line tells whether a definition can begin there. -/

/-- A line with which no definition begins. -/
def IsInner (line : String) : Prop := line.toList[2]? ≠ some 'c'

theorem IsInner.ne_opening {line : String} (h : IsInner line) (name : String) :
    line ≠ Routine.opening name := by
  rintro rfl
  exact h (by simp [Routine.opening, moduleType])

theorem count_inner {lines : List String} (h : ∀ l ∈ lines, IsInner l) (name : String) :
    lines.count (Routine.opening name) = 0 :=
  List.count_eq_zero.2 fun hm => (h _ hm).ne_opening name rfl

/-- A line that has a third character with which no definition begins, whatever follows. -/
def StartsInner (line : String) : Prop := ∃ c, line.toList[2]? = some c ∧ c ≠ 'c'

theorem StartsInner.append {line : String} (h : StartsInner line) (rest : String) :
    StartsInner (line ++ rest) := by
  obtain ⟨c, hc, hne⟩ := h
  obtain ⟨hlength, -⟩ := List.getElem?_eq_some_iff.1 hc
  exact ⟨c, by rw [String.toList_append, List.getElem?_append_left hlength, hc], hne⟩

theorem StartsInner.isInner {line : String} (h : StartsInner line) : IsInner line := by
  obtain ⟨c, hc, hne⟩ := h
  rw [IsInner, hc]
  exact fun e => hne (Option.some.inj e)

theorem isInner_newModule : IsInner newModule := by simp [IsInner, newModule]

theorem isInner_bracedLines (entries : List String) (terminator : String) :
    ∀ l ∈ bracedLines entries terminator, IsInner l := by
  unfold bracedLines
  split
  · simp [IsInner]
  · simp only [List.forall_mem_append, List.forall_mem_map]
    exact ⟨⟨by simp [IsInner], fun e _ => by simp [IsInner]⟩, by simp [IsInner]⟩

theorem Enumeration.isInner_body (e : Enumeration) : ∀ l ∈ e.routine.body, IsInner l := by
  have hvalues : ∀ l ∈ e.valueLines, IsInner l := by
    simp only [valueLines]
    split
    · simp [IsInner]
    · simp only [List.forall_mem_append, List.forall_mem_map]
      refine ⟨⟨by simp [IsInner], fun v _ => ?_⟩, by simp [IsInner]⟩
      have hstart : StartsInner "      \x7bstatic_cast<Underlying>(" := ⟨' ', by simp, by decide⟩
      exact ((((((hstart.append _).append _).append _).append _).append _).append _).isInner
  simp only [routine, List.forall_mem_append]
  refine ⟨⟨?_, hvalues⟩, ?_⟩
  · rw [List.forall_mem_cons, List.forall_mem_singleton]
    exact ⟨by simp [IsInner], isInner_newModule⟩
  · rw [List.forall_mem_singleton]
    simp [IsInner]

theorem ScriptClass.isInner_body (r : Registry) (c : ScriptClass) :
    ∀ l ∈ (c.routine r).body, IsInner l := by
  simp only [routine, List.forall_mem_append, List.forall_mem_map]
  refine ⟨⟨⟨?_, isInner_bracedLines _ _⟩, isInner_bracedLines _ _⟩, fun related _ => ?_⟩
  · rw [List.forall_mem_cons, List.forall_mem_singleton]
    exact ⟨isInner_newModule, by simp [IsInner]⟩
  · have hstart : StartsInner "    module->add(chaiscript::base_class<" := ⟨' ', by simp, by decide⟩
    exact ((((hstart.append _).append _).append _).append _).isInner

theorem Registry.isInner_body {r : Registry} :
    ∀ routine ∈ r.routines, ∀ l ∈ routine.body, IsInner l := by
  simp only [routines, List.forall_mem_append, List.forall_mem_map]
  exact ⟨fun e _ => e.isInner_body, fun c _ => c.isInner_body r⟩

/-- One definition begins in the lines of a routine. -/
theorem count_lines {routine : Routine} (h : ∀ l ∈ routine.body, IsInner l) (name : String) :
    routine.lines.count (Routine.opening name) = [routine.name].count name := by
  have hend : ["    return module;", "  \x7d"].count (Routine.opening name) = 0 :=
    count_inner (by simp [IsInner]) name
  have hopening : Routine.opening routine.name = Routine.opening name ↔ routine.name = name :=
    ⟨fun e => by simpa [Routine.opening, ← String.toList_inj] using e, fun e => e ▸ rfl⟩
  rw [Routine.lines, List.count_append, List.count_append, hend, count_inner h,
    List.count_singleton, List.count_singleton]
  simp only [beq_iff_eq, hopening]
  omega

/-- The definitions of some routines begin once for each of them. -/
theorem count_flatMap_lines {routines : List Routine}
    (h : ∀ routine ∈ routines, ∀ l ∈ routine.body, IsInner l) (name : String) :
    (routines.flatMap fun routine => "" :: routine.lines).count (Routine.opening name) =
      (routines.map (·.name)).count name := by
  induction routines with
  | nil => rfl
  | cons routine routines ih =>
    obtain ⟨hbody, hrest⟩ := List.forall_mem_cons.1 h
    have hfirst : "" ≠ Routine.opening name := IsInner.ne_opening (by simp [IsInner]) name
    rw [List.flatMap_cons, List.count_append, List.count_cons_of_ne hfirst, count_lines hbody,
      ih hrest, List.map_cons, ← List.count_append, List.singleton_append]

namespace Registry

/-- The line with which the definition of a routine begins stands in the header once for each
routine of that name. -/
theorem count_headerLines (r : Registry) (guardName name : String) :
    (r.headerLines guardName).count (Routine.opening name) =
      (r.routines.map (·.name)).count name := by
  have hguard : ∀ l ∈ guardLines guardName ++ r.includeLines ++ ["", "namespace generated \x7b"] ++
      r.scopeLines, IsInner l := by
    simp only [List.forall_mem_append, includeLines, scopeLines, List.forall_mem_map, guardLines]
    exact ⟨⟨⟨by simp [IsInner], fun path _ => by simp [IsInner], fun path _ => by simp [IsInner]⟩,
      by simp [IsInner]⟩, fun scope _ => by simp [IsInner]⟩
  have hentry : ∀ l ∈ entryLines r.routines ++ ["\x7d", "", "#endif // " ++ guardName],
      IsInner l := by
    simp only [List.forall_mem_append, entryLines, List.forall_mem_map]
    refine ⟨⟨⟨⟨by simp [IsInner], ?_⟩, fun routine _ => by simp [IsInner]⟩, by simp [IsInner]⟩,
      by simp [IsInner]⟩
    split <;> simp [IsInner]
  rw [headerLines, List.append_assoc, List.count_append, List.count_append, count_inner hguard,
    count_inner hentry, count_flatMap_lines isInner_body]
  omega

end Registry

/-- The header of a run is the text of its header lines. The names of the routines that it defines
are distinct if and only if the names are apart, and so no definition begins twice if and only if
they are. -/
theorem routines_distinct_iff {units : List SourceUnit} {guardName : String} {out : Generated}
    (h : generate units guardName = .ok out) :
    out.text = unlines (out.registry.headerLines guardName) ∧
      ((out.registry.routines.map (·.name)).Nodup ↔ out.registry.NamesApart) ∧
      ((∀ name, (out.registry.headerLines guardName).count (Routine.opening name) ≤ 1) ↔
        out.registry.NamesApart) := by
  obtain ⟨hbuild, htext⟩ := generate_eq_ok_iff.1 h
  have hiff := Registry.nodup_map_name_routines (Draft.keyed_build (Draft.keyed_ofList _) hbuild)
  refine ⟨htext, hiff, ?_⟩
  rw [← hiff, List.nodup_iff_count_le_one]
  simp only [Registry.count_headerLines]

/-- A header that declares an enumeration in a namespace. -/
def enumHeader (path scope name : String) : SourceUnit :=
  ⟨path, path, "namespace " ++ scope ++ " \x7b\n//= SCRIPTABLE ENUM\nenum " ++ name ++
    " \x7b RED \x7d;\n\x7d\n"⟩

theorem routines_distinct_color_shade :
    ∃ out, generate [enumHeader "a.h" "A" "Color", enumHeader "b.h" "B" "Shade"] "G" = .ok out ∧
      out.registry.NamesApart ∧
        ∀ name, (out.registry.headerLines "G").count (Routine.opening name) ≤ 1 := by
  obtain ⟨out, h, hnames⟩ : ∃ out,
      generate [enumHeader "a.h" "A" "Color", enumHeader "b.h" "B" "Shade"] "G" = .ok out ∧
        out.registry.routines.map (·.name) = ["getColorModule", "getShadeModule"] :=
    ⟨_, rfl, rfl⟩
  obtain ⟨-, hdistinct, honce⟩ := routines_distinct_iff h
  have hapart := hdistinct.1 (by rw [hnames]; decide)
  exact ⟨out, h, hapart, honce.2 hapart⟩

/-- Two namespaces may each declare an enumeration of one name, and then the header defines one
routine twice. -/
theorem exists_routine_twice :
    ∃ out, generate [enumHeader "a.h" "A" "Color", enumHeader "b.h" "B" "Color"] "G" = .ok out ∧
      out.diagnostics = [] ∧
      ¬(out.registry.routines.map (·.name)).Nodup ∧
      (out.registry.headerLines "G").count (Routine.opening "getColorModule") = 2 := by
  obtain ⟨out, h, hdiagnostics, hnames⟩ : ∃ out,
      generate [enumHeader "a.h" "A" "Color", enumHeader "b.h" "B" "Color"] "G" = .ok out ∧
        out.diagnostics = [] ∧
          out.registry.routines.map (·.name) = ["getColorModule", "getColorModule"] :=
    ⟨_, rfl, rfl, rfl⟩
  refine ⟨out, h, hdiagnostics, by rw [hnames]; decide, ?_⟩
  rw [Registry.count_headerLines, hnames]
  decide

end ChaiBind
