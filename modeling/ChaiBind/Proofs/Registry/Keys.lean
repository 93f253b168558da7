import ChaiBind.Run.Generation
import Mathlib.Data.List.Basic

/-!
# Keys of a registry

A draft files every class under its bare name and every enumeration under its
qualified name, whatever it takes in (`Draft.Keyed`), and building a registry
keeps this (`keyed_build`). The names of the classes of a registry are therefore
distinct, and so are the qualified names of its enumerations.
-/

namespace ChaiBind

namespace Table

variable {κ α β : Type} {t : Table κ α} {key : α → κ}

/-- Every value stands under its own key. -/
def FiledBy (t : Table κ α) (key : α → κ) : Prop := ∀ e ∈ t.entries, e.1 = key e.2

theorem filedBy_empty (key : α → κ) : (empty : Table κ α).FiledBy key := by
  intro e he
  cases he

theorem FiledBy.insert [DecidableEq κ] (h : t.FiledBy key) (v : α) :
    (t.insert (key v) v).FiledBy key := by
  obtain ⟨entries, hnodup⟩ := t
  simp only [FiledBy, Table.insert, alter] at h ⊢
  clear hnodup
  induction entries with
  | nil => simp [alterEntries]
  | cons e es ih =>
    rw [List.forall_mem_cons] at h
    simp only [alterEntries]
    split
    · exact List.forall_mem_cons.2 ⟨‹e.1 = key v›, h.2⟩
    · exact List.forall_mem_cons.2 ⟨h.1, ih h.2⟩

theorem FiledBy.mapValues (h : t.FiledBy key) {f : κ → α → β} {key' : β → κ}
    (hf : ∀ k v, key' (f k v) = key v) : (t.mapValues f).FiledBy key' := by
  intro e he
  obtain ⟨e', he', rfl⟩ := List.mem_map.1 he
  rw [hf]
  exact h e' he'

theorem FiledBy.map_values (h : t.FiledBy key) : t.values.map key = t.keys := by
  rw [values, keys, List.map_map]
  exact List.map_congr_left fun e he => (h e he).symm

theorem FiledBy.nodup_map_values (h : t.FiledBy key) : (t.values.map key).Nodup :=
  h.map_values ▸ t.nodup

/-- What is found under a key is the entry of that key. -/
theorem get?_eq_some_iff [DecidableEq κ] {k : κ} {v : α} : t.get? k = some v ↔ (k, v) ∈ t.entries := by
  rw [get?, List.lookup_eq_some_iff]
  constructor
  · rintro ⟨before, after, h, -⟩
    rw [h]
    exact List.mem_append_right before List.mem_cons_self
  · intro hmem
    obtain ⟨before, after, h⟩ := List.append_of_mem hmem
    refine ⟨before, after, h, fun e he => ?_⟩
    have hnodup := t.nodup
    rw [h, List.map_append, List.nodup_append] at hnodup
    have hne : e.1 ≠ k := hnodup.2.2 _ (List.mem_map_of_mem he) _ List.mem_cons_self
    simpa using Ne.symm hne

theorem get?_eq_none_iff [DecidableEq κ] {k : κ} : t.get? k = none ↔ k ∉ t.keys := by
  rw [← contains_iff, contains, Bool.not_eq_true, Option.isSome_eq_false_iff, Option.isNone_iff_eq_none]

theorem entries_eq_filterMap [DecidableEq κ] (t : Table κ α) :
    t.entries = t.keys.filterMap fun k => (t.get? k).map (k, ·) := by
  rw [keys, List.filterMap_map]
  have hfound : ∀ e ∈ t.entries, (t.get? e.1).map (e.1, ·) = some e := by
    intro e he
    rw [get?_eq_some_iff.2 he]
    rfl
  exact ((List.filterMap_congr hfound).trans List.filterMap_some).symm

/-- Tables with the same keys in the same order, and the same values under them, are equal. -/
theorem ext_get? [DecidableEq κ] {t t' : Table κ α} (hkeys : t.keys = t'.keys)
    (hget : ∀ k, t.get? k = t'.get? k) : t = t' := by
  refine ext_entries ?_
  rw [entries_eq_filterMap, hkeys, entries_eq_filterMap t']
  exact List.filterMap_congr fun k _ => by rw [hget]

/-- A value that stands under its key is found under it. -/
theorem FiledBy.mem_values_iff [DecidableEq κ] (h : t.FiledBy key) {v : α} :
    v ∈ t.values ↔ t.get? (key v) = some v := by
  rw [get?_eq_some_iff, values, List.mem_map]
  constructor
  · rintro ⟨e, he, rfl⟩
    rw [← h e he]
    exact he
  · intro hmem
    exact ⟨_, hmem, rfl⟩

end Table

/-- Classes stand under their bare names, enumerations under their qualified names. -/
structure Registry.Keyed (r : Registry) : Prop where
  classes : r.classes.FiledBy (·.name)
  enums : r.enums.FiledBy (·.qualifiedName)

namespace Draft

theorem keyed_empty : empty.registry.Keyed :=
  ⟨Table.filedBy_empty _, Table.filedBy_empty _⟩

@[simp] theorem note_registry (d : Draft) (path : String) (f : Option Finding) :
    (d.note path f).registry = d.registry := rfl

theorem keyed_addScope {d : Draft} (h : d.registry.Keyed) (scope : Option String) :
    (d.addScope scope).registry.Keyed := by
  unfold addScope
  split
  · split <;> exact ⟨h.classes, h.enums⟩
  · exact h

theorem keyed_addClass {d : Draft} (h : d.registry.Keyed) (c : ScriptClass) :
    (d.addClass c).registry.Keyed :=
  ⟨h.classes.insert c, h.enums⟩

theorem keyed_addEnumeration {d : Draft} (h : d.registry.Keyed) (e : Enumeration) :
    (d.addEnumeration e).registry.Keyed :=
  ⟨h.classes, h.enums.insert e⟩

/-- Taking in one header keeps the keys. -/
theorem keyed_add {d : Draft} (h : d.registry.Keyed) (r : Recognized) :
    (d.add r).registry.Keyed := by
  have henums : ∀ (es : List Enumeration) (d : Draft), d.registry.Keyed →
      (es.foldl addEnumeration d).registry.Keyed := fun es d h =>
    List.foldlRecOn (motive := fun d : Draft => d.registry.Keyed) es addEnumeration h
      fun _ h e _ => keyed_addEnumeration h e
  have hnoted : ({ d with diagnostics := d.diagnostics ++ r.diagnostics } : Draft).registry.Keyed :=
    h
  have hscope : (if r.contributes then
      ({ d with diagnostics := d.diagnostics ++ r.diagnostics } : Draft).addScope r.scope
      else { d with diagnostics := d.diagnostics ++ r.diagnostics }).registry.Keyed := by
    split
    · exact keyed_addScope hnoted r.scope
    · exact hnoted
  refine henums _ _ ?_
  cases r.class? with
  | none => exact hscope
  | some c => exact keyed_addClass hscope c

/-- Whatever headers a draft has taken in, its keys are right. -/
theorem keyed_ofList (rs : List Recognized) : (ofList rs).registry.Keyed :=
  List.foldlRecOn (motive := fun d : Draft => d.registry.Keyed) rs add keyed_empty
    fun _ h r _ => keyed_add h r

/-- A registry is built with the ancestors of its classes and is the registry of the draft else. -/
theorem build_eq_ok_iff {d : Draft} {r : Registry} {ds : List Diagnostic} :
    d.build = .ok (r, ds) ↔ ∃ ancestors, d.inheritance.closure = .ok ancestors ∧
      { d.registry with
        classes := d.registry.classes.mapValues fun name c =>
          { c with ancestors := (ancestors.get? name).getD [] } } = r ∧
      d.diagnostics ++ d.unresolvedNotes = ds := by
  rw [build]
  cases d.inheritance.closure <;> simp [bind, Except.bind, pure, Except.pure]

theorem keyed_build {d : Draft} (h : d.registry.Keyed) {r : Registry} {ds : List Diagnostic}
    (hb : d.build = .ok (r, ds)) : r.Keyed := by
  obtain ⟨ancestors, -, rfl, -⟩ := build_eq_ok_iff.1 hb
  exact ⟨h.classes.mapValues fun _ _ => rfl, h.enums⟩

end Draft

theorem generate_eq_ok_iff {units : List SourceUnit} {guardName : String} {out : Generated} :
    generate units guardName = .ok out ↔
      (Draft.ofList (units.map recognize)).build = .ok (out.registry, out.diagnostics) ∧
        out.text = out.registry.header guardName := by
  obtain ⟨text, diagnostics, registry⟩ := out
  rw [generate, generateWith]
  cases (Draft.ofList (units.map recognize)).build with
  | error c => simp [bind, Except.bind]
  | ok b =>
    obtain ⟨r, ds⟩ := b
    simp only [bind, Except.bind, pure, Except.pure, Except.ok.injEq, Generated.mk.injEq,
      Prod.mk.injEq]
    constructor
    · rintro ⟨rfl, rfl, rfl⟩
      exact ⟨⟨rfl, rfl⟩, rfl⟩
    · rintro ⟨⟨rfl, rfl⟩, rfl⟩
      exact ⟨rfl, rfl, rfl⟩

end ChaiBind
