import ChaiBind.Binding.Header
import ChaiBind.Proofs.Inheritance.Ancestors
import ChaiBind.Proofs.Registry.Duplicates
import Mathlib.Data.List.Perm.Basic

/-!
# The order of discovery

Headers that declare no name twice can be discovered in any order. The order decides where a
declaration stands in the registry, but neither what is registered nor what is generated for it.

* `closure_perm`: the ancestors of a class depend on the bases of each class, not on where it
  stands; so does whether there is a cycle.
* `inheritance_bases`: a draft looks for ancestors among the bases of its own classes.
* `build_perm`: registries that are built from the same headers in two orders.
-/

namespace ChaiBind

namespace Table

variable {κ α β : Type} [DecidableEq κ] {key : α → κ}

theorem alterEntries_of_notMem {k : κ} {es : List (κ × α)} (h : k ∉ es.map Prod.fst)
    (f : Option α → α) : alterEntries k f es = es ++ [(k, f none)] := by
  induction es with
  | nil => rfl
  | cons e es ih =>
    rw [List.map_cons, List.mem_cons, not_or] at h
    rw [alterEntries, if_neg (Ne.symm h.1), ih h.2, List.cons_append]

/-- Values with distinct keys stand in a table in the order in which they came. -/
theorem entries_fill_of_nodup {xs : List α} (h : (xs.map key).Nodup) :
    (fill key xs).entries = xs.map fun x => (key x, x) := by
  induction xs using List.reverseRecOn with
  | nil => rfl
  | append_singleton xs x ih =>
    rw [List.map_append, List.nodup_append] at h
    have hx : key x ∉ ((fill key xs).entries).map Prod.fst := by
      rw [ih h.1, List.map_map]
      exact fun hmem => h.2.2 _ hmem _ (List.mem_singleton_self _) rfl
    rw [fill_append_singleton]
    show alterEntries _ _ _ = _
    rw [alterEntries_of_notMem hx, ih h.1, List.map_append]
    rfl

/-- A table is filled with its own values. -/
theorem FiledBy.fill_values {t : Table κ α} (h : t.FiledBy key) : fill key t.values = t := by
  apply ext_entries
  rw [entries_fill_of_nodup h.nodup_map_values, values, List.map_map]
  refine (List.map_congr_left fun e he => ?_).trans (List.map_id _)
  show (key e.2, e.2) = e
  rw [← h e he]

theorem mapValues_insert (t : Table κ α) (k : κ) (v : α) (f : κ → α → β) :
    (t.insert k v).mapValues f = (t.mapValues f).insert k (f k v) := by
  obtain ⟨es, hes⟩ := t
  apply ext_entries
  show (alterEntries _ _ es).map _ = alterEntries _ _ (es.map _)
  clear hes
  induction es with
  | nil => rfl
  | cons e es ih =>
    rw [alterEntries, List.map_cons, alterEntries]
    by_cases h : e.1 = k
    · rw [if_pos h, if_pos h, List.map_cons, h]
    · rw [if_neg h, if_neg h, List.map_cons, ih]

theorem get?_eq_of_perm {t u : Table κ α} (h : t.entries.Perm u.entries) (k : κ) :
    t.get? k = u.get? k := by
  ext v
  rw [get?_eq_some_iff, get?_eq_some_iff, h.mem_iff]

/-- Filling a table in another order files the same values. -/
theorem entries_fill_perm {xs ys : List α} (h : xs.Perm ys) (hnodup : (xs.map key).Nodup) :
    (fill key xs).entries.Perm (fill key ys).entries := by
  rw [entries_fill_of_nodup hnodup, entries_fill_of_nodup ((h.map key).nodup hnodup)]
  exact h.map _

end Table

namespace Inheritance

/-! ## Graphs with the same bases -/

variable {g g' : Inheritance}

theorem exists_closure_iff (g : Inheritance) :
    (∃ found, g.closure = .ok found) ↔ WellFounded fun b a => g.Extends a b := by
  constructor
  · rintro ⟨found, h⟩
    obtain ⟨⟨order, ho⟩, -⟩ := closure_eq_ok_iff.1 h
    exact wellFounded_extends ho
  · intro hw
    have hs := g.settles_finishOrder
    cases ho : g.finishOrder with
    | error c =>
      rw [ho] at hs
      obtain ⟨x, -, hx⟩ := IsCycle.exists_transGen hs
      exact absurd hx (not_transGen_self hw x)
    | ok order => exact ⟨_, closure_eq_ok_iff.2 ⟨⟨order, ho⟩, rfl⟩⟩

section

variable (h : ∀ name, g.bases.get? name = g'.bases.get? name)
include h

theorem basesOf_congr (name : String) : g.basesOf name = g'.basesOf name := by
  rw [basesOf, h, basesOf]

theorem contains_congr (name : String) : g.contains name = g'.contains name := by
  rw [contains, Table.contains, h, contains, Table.contains]

theorem registeredBases_congr (name : String) :
    g.registeredBases name = g'.registeredBases name := by
  rw [registeredBases, basesOf_congr h, registeredBases]
  exact List.filter_congr fun b _ => contains_congr h b

theorem extends_congr (a b : String) : g.Extends a b ↔ g'.Extends a b := by
  rw [Extends, registeredBases_congr h, Extends]

/-- Graphs with the same bases have ancestors both or neither, and then the same ones. -/
theorem closure_perm :
    ((∃ c c', g.closure = .error c ∧ g'.closure = .error c') ∨
      ∃ found found', g.closure = .ok found ∧ g'.closure = .ok found' ∧
        ∀ name, found.get? name = found'.get? name) := by
  have hextends : (fun b a => g.Extends a b) = fun b a => g'.Extends a b := by
    funext b a
    exact propext (extends_congr h a b)
  have hiff : (∃ found, g.closure = .ok found) ↔ ∃ found, g'.closure = .ok found := by
    rw [exists_closure_iff, exists_closure_iff, hextends]
  cases hc : g.closure with
  | error c =>
    refine .inl ⟨c, ?_⟩
    cases hc' : g'.closure with
    | error c' => exact ⟨c', rfl, rfl⟩
    | ok found' =>
      obtain ⟨found, hf⟩ := hiff.2 ⟨found', hc'⟩
      rw [hc] at hf
      cases hf
  | ok found =>
    obtain ⟨found', hf'⟩ := hiff.1 ⟨found, hc⟩
    refine .inr ⟨found, found', rfl, hf', fun name => ?_⟩
    have hw := (exists_closure_iff g).1 ⟨found, hc⟩
    obtain ⟨resolved, hr⟩ := exists_resolves hw
    have hr' : g'.Resolves resolved := by
      intro name
      rw [hr name, basesOf_congr h, registeredBases_congr h]
    rw [get?_closure hr hw hc, get?_closure hr' (hextends ▸ hw) hf', contains_congr h]

end

end Inheritance

namespace Draft

/-- The graph of a draft holds the bases of its classes, in their order. -/
theorem inheritance_bases {d : Draft} (h : d.registry.Keyed) :
    d.inheritance.bases = d.registry.classes.mapValues fun _ c => c.bases := by
  have hfill : ∀ cs : List ScriptClass,
      (cs.foldl (fun g c => g.add c.name c.bases) Inheritance.empty).bases =
        (Table.fill (·.name) cs).mapValues fun _ c => c.bases := by
    intro cs
    induction cs using List.reverseRecOn with
    | nil => rfl
    | append_singleton cs c ih =>
      rw [Table.fill_append_singleton, Table.mapValues_insert, ← ih, List.foldl_append]
      rfl
  rw [inheritance, hfill, h.classes.fill_values]

theorem build_eq_error_iff {d : Draft} {c : InheritanceCycle} :
    d.build = .error c ↔ d.inheritance.closure = .error c := by
  rw [build]
  cases d.inheritance.closure <;> simp [bind, Except.bind, pure, Except.pure]

end Draft

/-- What is generated for a class depends on the registry only through the names of the classes. -/
theorem ScriptClass.routine_congr (r r' : Registry)
    (h : ∀ name, r.classes.get? name = r'.classes.get? name) (c : ScriptClass) :
    c.routine r = c.routine r' := by
  have hresolve : r.resolve = r'.resolve := by
    funext name
    rw [Registry.resolve, h, Registry.resolve]
  rw [routine, routine, relatedTypes, hresolve, relatedTypes]

/-- Headers of which no two classes have one name and no two enumerations one qualified name can be
added in any order: either there is a cycle in both orders, or both registries hold the same
declarations, every class with the same ancestors in the same order, and the same is generated for
each of them. -/
theorem build_perm {rs rs' : List Recognized} (h : rs.Perm rs')
    (hclasses : ((rs.flatMap (·.class?.toList)).map (·.name)).Nodup)
    (henums : ((rs.flatMap (·.enums)).map (·.qualifiedName)).Nodup) :
    (∃ c c', (Draft.ofList rs).build = .error c ∧ (Draft.ofList rs').build = .error c') ∨
      ∃ reg ds reg' ds', (Draft.ofList rs).build = .ok (reg, ds) ∧
        (Draft.ofList rs').build = .ok (reg', ds') ∧
        reg.classes.values.Perm reg'.classes.values ∧ reg.enums.values.Perm reg'.enums.values ∧
        (∀ name, reg.classes.get? name = reg'.classes.get? name) ∧
        (∀ name, reg.enums.get? name = reg'.enums.get? name) ∧
        (∀ c ∈ reg.classes.values, (c.routine reg).source = (c.routine reg').source ∧
          (c.routine reg).call = (c.routine reg').call) ∧
        ∀ name, (reg.enums.get? name).map (fun e => (e.routine.source, e.routine.call)) =
          (reg'.enums.get? name).map fun e => (e.routine.source, e.routine.call) := by
  have hperm : (Draft.ofList rs).registry.classes.entries.Perm
      (Draft.ofList rs').registry.classes.entries := by
    rw [Draft.classes_ofList, Draft.classes_ofList]
    exact Table.entries_fill_perm (h.flatMap_right _) hclasses
  have henumsPerm : (Draft.ofList rs).registry.enums.entries.Perm
      (Draft.ofList rs').registry.enums.entries := by
    rw [Draft.enums_ofList, Draft.enums_ofList]
    exact Table.entries_fill_perm (h.flatMap_right _) henums
  have hbases : ∀ name, (Draft.ofList rs).inheritance.bases.get? name =
      (Draft.ofList rs').inheritance.bases.get? name := by
    intro name
    rw [Draft.inheritance_bases (Draft.keyed_ofList rs), Draft.inheritance_bases (Draft.keyed_ofList rs'),
      Table.get?_mapValues, Table.get?_mapValues, Table.get?_eq_of_perm hperm]
  rcases Inheritance.closure_perm hbases with ⟨c, c', hc, hc'⟩ | ⟨found, found', hf, hf', hfound⟩
  · exact .inl ⟨c, c', Draft.build_eq_error_iff.2 hc, Draft.build_eq_error_iff.2 hc'⟩
  · refine .inr ⟨_, _, _, _, Draft.build_eq_ok_iff.2 ⟨found, hf, rfl, rfl⟩,
      Draft.build_eq_ok_iff.2 ⟨found', hf', rfl, rfl⟩, ?_⟩
    dsimp only
    simp only [hfound]
    generalize hwith : (fun name (c : ScriptClass) =>
      { c with ancestors := (found'.get? name).getD [] }) = withAncestors
    have hbuilt : ((Draft.ofList rs).registry.classes.mapValues withAncestors).entries.Perm
        ((Draft.ofList rs').registry.classes.mapValues withAncestors).entries := hperm.map _
    have hget := Table.get?_eq_of_perm hbuilt
    refine ⟨hbuilt.map _, henumsPerm.map _, hget, Table.get?_eq_of_perm henumsPerm, fun c _ => ?_,
      fun name => ?_⟩
    · have hroutine := ScriptClass.routine_congr ⟨_, (Draft.ofList rs).registry.enums,
        (Draft.ofList rs).registry.scopes⟩ ⟨_, (Draft.ofList rs').registry.enums,
        (Draft.ofList rs').registry.scopes⟩ hget c
      exact ⟨congrArg Routine.source hroutine, congrArg Routine.call hroutine⟩
    · rw [Table.get?_eq_of_perm henumsPerm]

/-- A header that declares a class with some bases and an enumeration in it. -/
def actorHeader (name : String) (bases : List String) : Recognized :=
  { scope := some "Game"
    class? := some ⟨name, some "Game", "actor.h", name ++ ".h", "", bases, [], Table.empty⟩
    enums := [⟨name ++ "::Kind", some "Game", "actor.h", name ++ ".h", true, ["PLAIN"]⟩]
    diagnostics := [] }

/-- Bases before and behind the class that extends them, one of which no header declares. -/
theorem build_actors_perm :
    let rs := [actorHeader "Imp" ["Beast", "Actor"], actorHeader "Actor" ["Node"],
      actorHeader "Beast" ["Actor"]]
    ∃ reg ds reg' ds', (Draft.ofList rs).build = .ok (reg, ds) ∧
      (Draft.ofList rs.reverse).build = .ok (reg', ds') ∧ reg.classes.keys ≠ reg'.classes.keys ∧
      (reg.classes.get? "Imp").map (·.ancestors) = some ["Beast", "Actor", "Node"] ∧
      (reg'.classes.get? "Imp").map (·.ancestors) = some ["Beast", "Actor", "Node"] ∧
      ∀ c ∈ reg.classes.values, (c.routine reg).source = (c.routine reg').source := by
  intro rs
  obtain ⟨reg, ds, hbuilt, hkeys, himp⟩ : ∃ reg ds, (Draft.ofList rs).build = .ok (reg, ds) ∧
      reg.classes.keys = ["Imp", "Actor", "Beast"] ∧
      (reg.classes.get? "Imp").map (·.ancestors) = some ["Beast", "Actor", "Node"] :=
    ⟨_, _, rfl, rfl, rfl⟩
  obtain ⟨reg', ds', hbuilt', hkeys'⟩ : ∃ reg' ds',
      (Draft.ofList rs.reverse).build = .ok (reg', ds') ∧
      reg'.classes.keys = ["Beast", "Actor", "Imp"] :=
    ⟨_, _, rfl, rfl⟩
  refine ⟨reg, ds, reg', ds', hbuilt, hbuilt', ?_, himp, ?_⟩
  · rw [hkeys, hkeys']
    decide
  · rcases build_perm rs.reverse_perm.symm (by decide) (by decide) with
      ⟨c, c', hc, -⟩ | ⟨_, _, _, _, h, h', -, -, hclasses, -, hroutine, -⟩
    · rw [hbuilt] at hc
      cases hc
    · obtain ⟨rfl, rfl⟩ := Prod.mk.inj (Except.ok.inj (hbuilt.symm.trans h))
      obtain ⟨rfl, rfl⟩ := Prod.mk.inj (Except.ok.inj (hbuilt'.symm.trans h'))
      exact ⟨hclasses "Imp" ▸ himp, fun c hc => (hroutine c hc).1⟩

end ChaiBind
