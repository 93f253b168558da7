import ChaiBind.Proofs.Binding.GeneratedNames
import ChaiBind.Proofs.Header.Sentinels

/-!
# Lines of a generated header

A generated header is put together line by line. Each line has a character that no sentinel has,
and all but two kinds of them hold nothing that goes on over a newline. So a header opts in if a
value of an enumeration or the path of an included header hides a sentinel, and only then
(`Registry.OneLine.isScriptable_header`).
-/

namespace ChaiBind

open Text Header

/-! ## Lines that opt in -/

/-- One of some lines is a sentinel, or holds one. -/
def OptsIn (lines : List String) : Prop := ∃ line ∈ lines, isScriptable line.toList

theorem optsIn_nil : ¬ OptsIn [] := by
  rintro ⟨line, hline, -⟩
  cases hline

theorem optsIn_cons {line : String} {lines : List String} :
    OptsIn (line :: lines) ↔ isScriptable line.toList ∨ OptsIn lines :=
  List.exists_mem_cons_iff ..

theorem optsIn_append {above below : List String} :
    OptsIn (above ++ below) ↔ OptsIn above ∨ OptsIn below := by
  simp only [OptsIn, List.mem_append, or_and_right, exists_or]

theorem optsIn_map {α : Type} {f : α → String} {xs : List α} :
    OptsIn (xs.map f) ↔ ∃ x ∈ xs, isScriptable (f x).toList := by
  simp only [OptsIn, List.mem_map, exists_exists_and_eq_and]

theorem optsIn_flatMap {α : Type} {f : α → List String} {xs : List α} :
    OptsIn (xs.flatMap f) ↔ ∃ x ∈ xs, OptsIn (f x) := by
  simp only [OptsIn, List.mem_flatMap]
  exact ⟨fun ⟨line, ⟨x, hx, hline⟩, h⟩ => ⟨x, hx, line, hline, h⟩,
    fun ⟨x, hx, line, hline, h⟩ => ⟨line, ⟨x, hx, hline⟩, h⟩⟩

/-- A text opts in by one of its lines. -/
theorem isScriptable_unlines (lines : List String) :
    isScriptable (unlines lines).toList ↔ OptsIn lines := by
  induction lines with
  | nil => exact iff_of_false (by decide) optsIn_nil
  | cons line lines ih =>
    rw [toList_unlines] at ih ⊢
    rw [List.flatMap_cons, List.append_assoc, List.singleton_append, isScriptable_append_newline,
      Bool.or_eq_true, ih, optsIn_cons]

theorem bars_ofList {cs : List Char} (h : Bars cs) : Bars (String.ofList cs).toList := by
  rwa [String.toList_ofList]

theorem bars_append {code rest : String} (hcode : Bars code.toList) (hrest : Text.OneLine rest) :
    Bars (code ++ rest).toList := by
  rw [String.toList_append]
  exact hcode.append hrest

theorem bars_append_left {rest code : String} (hrest : Text.OneLine rest)
    (hcode : Bars code.toList) : Bars (rest ++ code).toList := by
  rw [String.toList_append]
  exact hcode.append_left hrest

theorem bars_newModule : Bars newModule.toList := by
  have htype : Bars ("    " ++ "chaiscript::ModulePtr").toList :=
    bars_append_left (by decide) (bars_ofList (by decide))
  exact bars_append htype (oneLine_ofList.2 (by decide))

theorem not_optsIn_of_bars {lines : List String} (h : ∀ line ∈ lines, Bars line.toList) :
    ¬ OptsIn lines := by
  rintro ⟨line, hline, hscriptable⟩
  rw [(h line hline).isScriptable_eq_false] at hscriptable
  cases hscriptable

theorem not_optsIn_singleton {line : String} (h : Bars line.toList) : ¬ OptsIn [line] :=
  not_optsIn_of_bars fun _ hline => List.mem_singleton.1 hline ▸ h

/-- An empty line between others. -/
theorem optsIn_cons_empty {lines : List String} : OptsIn ("" :: lines) ↔ OptsIn lines := by
  rw [optsIn_cons, or_iff_right (by decide)]

/-! ## Lines of classes -/

theorem bars_of_mem_bracedLines {entries : List String} {terminator : String}
    (hentries : ∀ entry ∈ entries, Text.OneLine entry) (hterminator : Text.OneLine terminator)
    {line : String} (h : line ∈ bracedLines entries terminator) : Bars line.toList := by
  unfold bracedLines at h
  split at h
  · obtain rfl := List.mem_singleton.1 h
    exact bars_append (bars_ofList (by decide)) hterminator
  · simp only [List.mem_append, List.mem_singleton, List.mem_map] at h
    rcases h with (rfl | ⟨entry, hentry, rfl⟩) | rfl
    · exact bars_ofList (by decide)
    · have hindented : Text.OneLine ("        " ++ entry) :=
        oneLine_append.2 ⟨by decide, hentries entry hentry⟩
      exact bars_append_left hindented (bars_ofList (by decide))
    · exact bars_append (bars_ofList (by decide)) hterminator

/-- The lines around the body of a routine stay out. -/
theorem Routine.optsIn_lines {routine : Routine} (hname : Text.OneLine routine.name) :
    OptsIn routine.lines ↔ OptsIn routine.body := by
  have hopening : ¬ OptsIn [Routine.opening routine.name] :=
    not_optsIn_singleton (bars_append_left (oneLine_append.2 ⟨by decide, hname⟩)
      (bars_ofList (by decide)))
  have hend : ¬ OptsIn ["    return module;", "  \x7d"] :=
    not_optsIn_of_bars fun line hline => by
      simp only [List.mem_cons, List.not_mem_nil, or_false] at hline
      rcases hline with rfl | rfl <;> exact bars_ofList (by decide)
  rw [Routine.lines, optsIn_append, optsIn_append, or_iff_left hend, or_iff_right hopening]

theorem ScriptClass.OneLine.routineName {c : ScriptClass} (h : c.OneLine) :
    Text.OneLine c.routineName :=
  oneLine_append.2 ⟨oneLine_append.2 ⟨by decide, h.name⟩, by decide⟩

theorem Registry.OneLine.not_optsIn_classRoutine {r : Registry} (hr : r.OneLine) {c : ScriptClass}
    (hc : c ∈ r.classes.values) : ¬ OptsIn (c.routine r).lines := by
  have h := (hr.classes c hc).1
  have hname : Text.OneLine (c.routine r).name := h.routineName
  rw [Routine.optsIn_lines hname]
  refine not_optsIn_of_bars fun line hline => ?_
  simp only [ScriptClass.routine, List.mem_append, List.mem_cons, List.not_mem_nil, or_false,
    List.mem_map] at hline
  rcases hline with (((rfl | rfl) | hbraced) | hbraced) | ⟨related, hrelated, rfl⟩
  · exact bars_newModule
  · refine bars_append (bars_append (bars_append (bars_append ?_ h.qualifiedName) ?_) h.name) ?_
    · exact bars_ofList (by decide)
    · exact oneLine_ofList.2 (by decide)
    · exact oneLine_ofList.2 (by decide)
  · exact bars_of_mem_bracedLines h.constructorEntries (by decide) hbraced
  · exact bars_of_mem_bracedLines h.methodEntries (by decide) hbraced
  · have hrelated := hr.relatedTypes hc related hrelated
    unfold ScriptClass.relationLine
    refine bars_append (bars_append (bars_append (bars_append ?_ hrelated) ?_) h.qualifiedName) ?_
    · exact bars_ofList (by decide)
    · exact oneLine_ofList.2 (by decide)
    · exact oneLine_ofList.2 (by decide)

/-! ## Lines of enumerations -/

theorem Enumeration.OneLine.routineName {e : Enumeration} (h : e.OneLine) :
    Text.OneLine e.routineName :=
  oneLine_append.2 ⟨oneLine_append.2 ⟨by decide, h.plainName⟩, by decide⟩

/-- A value stands twice in its line. -/
theorem Enumeration.OneLine.isScriptable_valueLine {e : Enumeration} (h : e.OneLine)
    (value : String) :
    isScriptable (e.valueLine value).toList ↔ HidesSentinel value.toList := by
  obtain ⟨scope, hscope, hexpr⟩ := h.exists_valueExpr
  have hfront : Bars ("      \x7bstatic_cast<Underlying>(" ++ scope).toList :=
    bars_append (bars_ofList (by decide)) hscope
  have hmiddle : Bars ("), \"" ++ e.flatName ++ "_").toList :=
    bars_append (bars_append (bars_ofList (by decide)) h.flatName) (by decide)
  have hback : Bars "\"\x7d,".toList := bars_ofList (by decide)
  have hline : (e.valueLine value).toList =
      ("      \x7bstatic_cast<Underlying>(" ++ scope).toList ++
        (value.toList ++ (("), \"" ++ e.flatName ++ "_").toList ++ value.toList) ++
          "\"\x7d,".toList) := by
    unfold Enumeration.valueLine
    rw [hexpr]
    simp only [String.toList_append, List.append_assoc]
  rw [hline, isScriptable_between hfront hback, hidesSentinel_twice hmiddle]

theorem Enumeration.OneLine.optsIn_valueLines {e : Enumeration} (h : e.OneLine) :
    OptsIn e.valueLines ↔ ∃ value ∈ e.values, HidesSentinel value.toList := by
  have hlist : Bars "    std::vector<std::pair<Underlying, std::string>> values".toList :=
    bars_ofList (by decide)
  have hopening : ¬ OptsIn ["    std::vector<std::pair<Underlying, std::string>> values" ++
      " = \x7b"] := not_optsIn_singleton (bars_append hlist (by decide))
  have hclosing : ¬ OptsIn ["    \x7d;"] := not_optsIn_singleton (bars_ofList (by decide))
  unfold Enumeration.valueLines
  dsimp only
  split
  · rename_i hempty
    rw [List.isEmpty_iff.1 hempty]
    exact iff_of_false (not_optsIn_singleton (bars_append hlist (by decide))) (by simp)
  · rw [optsIn_append, optsIn_append, or_iff_left hclosing, or_iff_right hopening, optsIn_map]
    simp only [h.isScriptable_valueLine]

theorem Enumeration.OneLine.optsIn_routine {e : Enumeration} (h : e.OneLine) :
    OptsIn e.routine.lines ↔ ∃ value ∈ e.values, HidesSentinel value.toList := by
  have hopening : ¬ OptsIn ["    using Underlying = std::underlying_type<" ++ e.qualifiedName ++
      ">::type;", newModule] := by
    refine not_optsIn_of_bars fun line hline => ?_
    simp only [List.mem_cons, List.not_mem_nil, or_false] at hline
    rcases hline with rfl | rfl
    · exact bars_append (bars_append (bars_ofList (by decide)) h.qualifiedName)
        (oneLine_ofList.2 (by decide))
    · exact bars_newModule
  have hclosing : ¬ OptsIn ["    chaiscript::utility::add_class<" ++ e.qualifiedName ++
      ">(*module, std::string(\"" ++ e.flatName ++ "\"), values);"] := by
    refine not_optsIn_singleton ?_
    refine bars_append (bars_append (bars_append (bars_append ?_ h.qualifiedName) ?_) h.flatName) ?_
    · exact bars_ofList (by decide)
    · exact oneLine_ofList.2 (by decide)
    · exact oneLine_ofList.2 (by decide)
  have hname : Text.OneLine e.routine.name := h.routineName
  rw [Routine.optsIn_lines hname]
  unfold Enumeration.routine
  dsimp only
  rw [optsIn_append, optsIn_append, or_iff_left hclosing, or_iff_right hopening,
    h.optsIn_valueLines]

/-! ## Lines of the header -/

namespace Registry

theorem not_optsIn_guardLines {guardName : String} (hguard : Text.OneLine guardName) :
    ¬ OptsIn (guardLines guardName) := by
  simp only [guardLines, optsIn_cons, optsIn_nil, or_false, not_or, Bool.not_eq_true]
  refine ⟨?_, ?_, ?_, ?_, by decide⟩
  · exact (bars_append (bars_ofList (by decide)) hguard).isScriptable_eq_false
  · exact (bars_append (bars_ofList (by decide)) hguard).isScriptable_eq_false
  · exact Bars.isScriptable_eq_false (bars_ofList (by decide))
  · exact Bars.isScriptable_eq_false (bars_ofList (by decide))

theorem optsIn_includeLines (r : Registry) :
    OptsIn r.includeLines ↔ ∃ path ∈ r.includes, HidesSentinel path.toList := by
  have hsystem : ¬ OptsIn (systemIncludes.map fun path => "#include <" ++ path ++ ">") := by
    have honeLine : ∀ path ∈ systemIncludes, Text.OneLine path := by decide
    refine not_optsIn_of_bars (List.forall_mem_map.2 fun path hpath => ?_)
    exact bars_append (bars_append (bars_ofList (by decide)) (honeLine path hpath)) (by decide)
  have hline : ∀ path : String,
      isScriptable ("#include \"" ++ path ++ "\"").toList ↔ HidesSentinel path.toList := by
    intro path
    rw [String.toList_append, String.toList_append, List.append_assoc]
    exact isScriptable_between (bars_ofList (by decide)) (bars_ofList (by decide)) path.toList
  rw [includeLines, optsIn_append, or_iff_right hsystem, optsIn_map]
  simp only [hline]

variable {r : Registry} (h : r.OneLine)
include h

theorem OneLine.not_optsIn_scopeLines : ¬ OptsIn r.scopeLines := by
  refine not_optsIn_of_bars (List.forall_mem_map.2 fun scope hscope => ?_)
  exact bars_append_left (oneLine_append.2 ⟨by decide, h.scopes scope hscope⟩)
    (bars_ofList (by decide))

theorem OneLine.optsIn_routines : OptsIn (r.routines.flatMap fun routine => "" :: routine.lines) ↔
    ∃ e ∈ r.enums.values, ∃ value ∈ e.values, HidesSentinel value.toList := by
  simp only [optsIn_flatMap, optsIn_cons_empty, routines, List.mem_append, List.mem_map]
  constructor
  · rintro ⟨_, ⟨e, he, rfl⟩ | ⟨c, hc, rfl⟩, hroutine⟩
    · exact ⟨e, he, (h.enums e he).optsIn_routine.1 hroutine⟩
    · exact absurd hroutine (h.not_optsIn_classRoutine hc)
  · rintro ⟨e, he, hvalue⟩
    exact ⟨_, .inl ⟨e, he, rfl⟩, (h.enums e he).optsIn_routine.2 hvalue⟩

theorem OneLine.not_optsIn_entryLines : ¬ OptsIn (entryLines r.routines) := by
  have hname : ∀ routine ∈ r.routines, Text.OneLine routine.name := by
    simp only [routines, List.mem_append, List.mem_map]
    rintro _ (⟨e, he, rfl⟩ | ⟨c, hc, rfl⟩)
    · exact (h.enums e he).routineName
    · exact (h.classes c hc).1.routineName
  rw [entryLines, List.cons_append, List.cons_append, List.cons_append, optsIn_cons_empty]
  refine not_optsIn_of_bars fun line hline => ?_
  simp only [List.mem_append, List.mem_cons, List.mem_map, List.not_mem_nil, or_false] at hline
  rcases hline with ((rfl | hunused) | ⟨routine, hroutine, rfl⟩) | rfl
  · exact bars_ofList (by decide)
  · split at hunused
    · obtain rfl := List.mem_singleton.1 hunused
      exact bars_ofList (by decide)
    · cases hunused
  · have hcall : Text.OneLine routine.call :=
      oneLine_append.2 ⟨hname routine hroutine, by decide⟩
    exact bars_append (bars_append (bars_ofList (by decide)) hcall) (by decide)
  · exact bars_ofList (by decide)

/-- A generated header opts in by an include path or by a value of an enumeration. -/
theorem OneLine.isScriptable_header {guardName : String} (hguard : Text.OneLine guardName) :
    isScriptable (r.header guardName).toList ↔
      (∃ path ∈ r.includes, HidesSentinel path.toList) ∨
        ∃ e ∈ r.enums.values, ∃ value ∈ e.values, HidesSentinel value.toList := by
  have hopening : ¬ OptsIn ["", "namespace generated \x7b"] := by
    rw [optsIn_cons_empty]
    exact not_optsIn_singleton (bars_ofList (by decide))
  have hend : ¬ OptsIn ["\x7d", "", "#endif // " ++ guardName] := by
    simp only [optsIn_cons, optsIn_nil, or_false, not_or, Bool.not_eq_true]
    have hguarded := bars_append (bars_ofList (by decide) : Bars "#endif // ".toList) hguard
    exact ⟨by decide, by decide, hguarded.isScriptable_eq_false⟩
  unfold header headerLines
  simp only [isScriptable_unlines, optsIn_append]
  rw [or_iff_left hend, or_iff_left h.not_optsIn_entryLines, h.optsIn_routines,
    or_iff_left h.not_optsIn_scopeLines, or_iff_left hopening,
    or_iff_right (not_optsIn_guardLines hguard), optsIn_includeLines]

end Registry

end ChaiBind
