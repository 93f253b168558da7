import ChaiBind.Proofs.Registry.DiscoveryOrder

/-!
# Ancestors in a built registry

A registry is built from a draft if there is a way to give every class its ancestors, and these
stand then in its classes (`HasAncestors`).

* `hasAncestors_of_build`: every registry that has been built.
* `HasAncestors.nodup`, `HasAncestors.name_notMem`: a class has no ancestor twice and is not its
  own.
* `HasAncestors.exists_base_of_mem`: every ancestor is a base of the class itself or of one of its
  ancestors that is registered.
-/

namespace ChaiBind

/-- The classes of a registry have the bases of a graph and the ancestors that these lead to. -/
structure HasAncestors (g : Inheritance) (resolved : String → List String) (reg : Registry) :
    Prop where
  resolves : g.Resolves resolved
  wellFounded : WellFounded fun b a => g.Extends a b
  contains : ∀ name, g.contains name = reg.classes.contains name
  bases : ∀ c ∈ reg.classes.values, c.bases = g.basesOf c.name
  ancestors : ∀ c ∈ reg.classes.values, c.ancestors = resolved c.name

namespace Table

variable {κ α β : Type}

theorem values_mapValues (t : Table κ α) (f : κ → α → β) :
    (t.mapValues f).values = t.entries.map fun e => f e.1 e.2 := by
  rw [values, mapValues, List.map_map]
  rfl

theorem contains_mapValues [DecidableEq κ] (t : Table κ α) (f : κ → α → β) (k : κ) :
    (t.mapValues f).contains k = t.contains k := by
  rw [contains, get?_mapValues, Option.isSome_map, contains]

end Table

namespace Draft

theorem contains_inheritance {d : Draft} (hd : d.registry.Keyed) (name : String) :
    d.inheritance.contains name = d.registry.classes.contains name := by
  rw [Inheritance.contains, inheritance_bases hd, Table.contains_mapValues]

theorem hasAncestors_of_build {d : Draft} (hd : d.registry.Keyed) {reg : Registry}
    {ds : List Diagnostic} (h : d.build = .ok (reg, ds)) :
    ∃ resolved, HasAncestors d.inheritance resolved reg := by
  obtain ⟨found, hfound, rfl, -⟩ := build_eq_ok_iff.1 h
  have hw := (Inheritance.exists_closure_iff _).1 ⟨found, hfound⟩
  obtain ⟨resolved, hr⟩ := Inheritance.exists_resolves hw
  refine ⟨resolved, hr, hw, fun name => ?_, ?_, ?_⟩
  · rw [contains_inheritance hd, Table.contains_mapValues]
  · rw [Table.values_mapValues, List.forall_mem_map]
    intro e he
    have hget : d.registry.classes.get? e.1 = some e.2 := Table.get?_eq_some_iff.2 he
    show e.2.bases = d.inheritance.basesOf e.2.name
    rw [← show e.1 = e.2.name from hd.classes e he, Inheritance.basesOf, inheritance_bases hd,
      Table.get?_mapValues, hget]
    rfl
  · rw [Table.values_mapValues, List.forall_mem_map]
    intro e he
    have hself : d.inheritance.contains e.1 := by
      rw [contains_inheritance hd, Table.contains, Table.get?_eq_some_iff.2 he]
      rfl
    show (found.get? e.1).getD [] = resolved e.2.name
    rw [Inheritance.get?_closure hr hw hfound, if_pos hself,
      ← show e.1 = e.2.name from hd.classes e he]
    rfl

end Draft

namespace HasAncestors

variable {g : Inheritance} {resolved : String → List String} {reg : Registry} {c : ScriptClass}

theorem contains_iff (h : HasAncestors g resolved reg) (hreg : reg.Keyed) {name : String} :
    g.contains name ↔ ∃ d ∈ reg.classes.values, d.name = name := by
  rw [h.contains, Table.contains, Option.isSome_iff_exists]
  constructor
  · rintro ⟨d, hd⟩
    have hname : name = d.name := hreg.classes _ (Table.get?_eq_some_iff.1 hd)
    exact ⟨d, hreg.classes.mem_values_iff.2 (hname ▸ hd), hname.symm⟩
  · rintro ⟨d, hd, rfl⟩
    exact ⟨d, hreg.classes.mem_values_iff.1 hd⟩

theorem nodup (h : HasAncestors g resolved reg) (hc : c ∈ reg.classes.values) :
    c.ancestors.Nodup := by
  rw [h.ancestors c hc]
  exact h.resolves.nodup c.name

/-- A class is not its own ancestor, for that would be a cycle. -/
theorem name_notMem (h : HasAncestors g resolved reg) (hreg : reg.Keyed)
    (hc : c ∈ reg.classes.values) : c.name ∉ c.ancestors := by
  rw [h.ancestors c hc, h.resolves.mem_iff h.wellFounded]
  intro hself
  exact Inheritance.not_transGen_self h.wellFounded c.name
    (Inheritance.transGen_extends hself ((h.contains_iff hreg).2 ⟨c, hc, rfl⟩))

/-- The last step on the way to an ancestor is a base of a registered class. -/
theorem exists_base_of_mem (h : HasAncestors g resolved reg) (hreg : reg.Keyed)
    (hc : c ∈ reg.classes.values) {a : String} (ha : a ∈ c.ancestors) :
    ∃ d ∈ reg.classes.values, (d = c ∨ d.name ∈ c.ancestors) ∧ a ∈ d.bases := by
  rw [h.ancestors c hc, h.resolves.mem_iff h.wellFounded] at ha
  obtain ⟨b, hb, hbase⟩ := Relation.TransGen.tail'_iff.1 ha
  rcases Relation.reflTransGen_iff_eq_or_transGen.1 hb with rfl | hb
  · exact ⟨c, hc, .inl rfl, by rwa [h.bases c hc]⟩
  · obtain ⟨d, hd, rfl⟩ := (h.contains_iff hreg).1 (Inheritance.contains_of_mem_basesOf hbase)
    refine ⟨d, hd, .inr ?_, by rwa [h.bases d hd]⟩
    rw [h.ancestors c hc, h.resolves.mem_iff h.wellFounded]
    exact hb

end HasAncestors

end ChaiBind
