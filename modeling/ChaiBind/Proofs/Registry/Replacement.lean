import ChaiBind.Proofs.Registry.Keys
import Mathlib.Data.List.Induction

/-!
# Which declarations a draft keeps

A declaration stays in a draft unless a later one has its key. In the order in
which declarations come, the ones that stay are those that are the last of their
key (`IsLast`), and a namespace is recorded if some header of it declares
anything.

* `mem_values_fill`: the values of a table that was filled one after the other.
* `mem_values_classes`, `mem_values_enums`: the classes and enumerations of a
  draft.
* `mem_scopes_ofList`: the namespaces of a draft.
-/

namespace ChaiBind

/-- The value is in the list, and none after it has its key. -/
def IsLast {α κ : Type} (key : α → κ) (xs : List α) (x : α) : Prop :=
  ∃ before after, xs = before ++ x :: after ∧ ∀ y ∈ after, key y ≠ key x

section

variable {α κ : Type} {key : α → κ}

theorem not_isLast_nil (x : α) : ¬ IsLast key [] x := by
  rintro ⟨before, after, h, -⟩
  simp at h

/-- With one more value at the end, that one is the last of its key. -/
theorem isLast_append_singleton {xs : List α} {x y : α} :
    IsLast key (xs ++ [x]) y ↔ y = x ∨ IsLast key xs y ∧ key x ≠ key y := by
  constructor
  · rintro ⟨before, after, hsplit, hafter⟩
    rcases List.eq_nil_or_concat after with rfl | ⟨after, z, rfl⟩
    · obtain ⟨-, hx⟩ := List.append_inj' hsplit rfl
      exact .inl (List.cons.inj hx).1.symm
    · rw [List.concat_eq_append, ← List.cons_append, ← List.append_assoc] at hsplit
      rw [List.concat_eq_append] at hafter
      obtain ⟨hxs, hx⟩ := List.append_inj' hsplit rfl
      obtain rfl : x = z := (List.cons.inj hx).1
      refine .inr ⟨⟨before, after, hxs, fun w hw => ?_⟩, ?_⟩
      · exact hafter w (List.mem_append_left _ hw)
      · exact hafter x (List.mem_append_right _ List.mem_cons_self)
  · rintro (rfl | ⟨⟨before, after, rfl, hafter⟩, hne⟩)
    · exact ⟨xs, [], rfl, by simp⟩
    · refine ⟨before, after ++ [x], by simp, ?_⟩
      rw [List.forall_mem_append, List.forall_mem_singleton]
      exact ⟨hafter, hne⟩

end

namespace Table

variable {κ α : Type} [DecidableEq κ] {t : Table κ α} {key : α → κ}

/-- The table in which each of some values has been inserted under its key, one after the other. -/
def fill (key : α → κ) (xs : List α) : Table κ α := xs.foldl (fun t x => t.insert (key x) x) empty

theorem fill_append_singleton (xs : List α) (x : α) :
    fill key (xs ++ [x]) = (fill key xs).insert (key x) x := by
  rw [fill, List.foldl_append]
  rfl

theorem filedBy_fill (xs : List α) : (fill key xs).FiledBy key :=
  List.foldlRecOn (motive := fun t : Table κ α => t.FiledBy key) xs _ (filedBy_empty key)
    fun _ h x _ => h.insert x

/-- The last value of each key stays. -/
theorem mem_values_fill {xs : List α} {v : α} : v ∈ (fill key xs).values ↔ IsLast key xs v := by
  rw [(filedBy_fill xs).mem_values_iff]
  induction xs using List.reverseRecOn with
  | nil => exact iff_of_false nofun (not_isLast_nil v)
  | append_singleton xs x ih =>
    rw [fill_append_singleton, get?_insert, isLast_append_singleton, ← ih]
    by_cases hkey : key v = key x
    · rw [if_pos hkey, Option.some.injEq, eq_comm]
      simp [hkey]
    · have hne : v ≠ x := fun e => hkey (e ▸ rfl)
      rw [if_neg hkey]
      simp [hne, Ne.symm hkey]

end Table

namespace Draft

/-! ## Taking in one header -/

/-- Enumerations only come to the enumerations. -/
theorem registry_foldl_addEnumeration (es : List Enumeration) (d : Draft) :
    (es.foldl addEnumeration d).registry = { d.registry with
      enums := es.foldl (fun t e => t.insert e.qualifiedName e) d.registry.enums } := by
  induction es generalizing d with
  | nil => rfl
  | cons e es ih => rw [List.foldl_cons, ih]; rfl

/-- A namespace only comes to the namespaces. -/
theorem registry_addScope (d : Draft) (scope : Option String) :
    (d.addScope scope).registry =
      { d.registry with scopes := (d.addScope scope).registry.scopes } := by
  unfold addScope
  split
  · split <;> rfl
  · rfl

@[simp] theorem classes_addScope (d : Draft) (scope : Option String) :
    (d.addScope scope).registry.classes = d.registry.classes := by
  rw [registry_addScope]

@[simp] theorem enums_addScope (d : Draft) (scope : Option String) :
    (d.addScope scope).registry.enums = d.registry.enums := by
  rw [registry_addScope]

theorem mem_scopes_addScope (d : Draft) (scope : Option String) (s : String) :
    s ∈ (d.addScope scope).registry.scopes ↔ s ∈ d.registry.scopes ∨ scope = some s := by
  unfold addScope
  cases scope with
  | none => simp
  | some s' =>
    by_cases hmem : s' ∈ d.registry.scopes
    · simp only [if_pos hmem, Option.some.injEq]
      exact ⟨.inl, fun h => h.elim id fun e => e ▸ hmem⟩
    · simp [hmem, eq_comm]

theorem classes_add (d : Draft) (r : Recognized) :
    (d.add r).registry.classes =
      r.class?.toList.foldl (fun t c => t.insert c.name c) d.registry.classes := by
  rw [add, registry_foldl_addEnumeration]
  cases r.class? <;> cases r.contributes <;> simp [addClass]

theorem enums_add (d : Draft) (r : Recognized) :
    (d.add r).registry.enums =
      r.enums.foldl (fun t e => t.insert e.qualifiedName e) d.registry.enums := by
  rw [add, registry_foldl_addEnumeration]
  cases r.class? <;> cases r.contributes <;> simp [addClass]

theorem mem_scopes_add (d : Draft) (r : Recognized) (s : String) :
    s ∈ (d.add r).registry.scopes ↔
      s ∈ d.registry.scopes ∨ r.contributes ∧ r.scope = some s := by
  rw [add, registry_foldl_addEnumeration]
  cases r.class? <;> cases r.contributes <;> simp [addClass, mem_scopes_addScope]

/-! ## Taking in all headers -/

theorem ofList_append_singleton (rs : List Recognized) (r : Recognized) :
    ofList (rs ++ [r]) = (ofList rs).add r := by
  rw [ofList, List.foldl_append]
  rfl

theorem classes_ofList (rs : List Recognized) :
    (ofList rs).registry.classes = Table.fill (·.name) (rs.flatMap (·.class?.toList)) := by
  induction rs using List.reverseRecOn with
  | nil => rfl
  | append_singleton rs r ih =>
    rw [ofList_append_singleton, classes_add, ih, List.flatMap_append, List.flatMap_singleton,
      Table.fill, Table.fill, List.foldl_append]

theorem enums_ofList (rs : List Recognized) :
    (ofList rs).registry.enums = Table.fill (·.qualifiedName) (rs.flatMap (·.enums)) := by
  induction rs using List.reverseRecOn with
  | nil => rfl
  | append_singleton rs r ih =>
    rw [ofList_append_singleton, enums_add, ih, List.flatMap_append, List.flatMap_singleton,
      Table.fill, Table.fill, List.foldl_append]

/-- The classes that stay are the last ones of their names. -/
theorem mem_values_classes {rs : List Recognized} {c : ScriptClass} :
    c ∈ (ofList rs).registry.classes.values ↔
      IsLast (·.name) (rs.flatMap (·.class?.toList)) c := by
  rw [classes_ofList, Table.mem_values_fill]

/-- The enumerations that stay are the last ones of their qualified names. -/
theorem mem_values_enums {rs : List Recognized} {e : Enumeration} :
    e ∈ (ofList rs).registry.enums.values ↔
      IsLast (·.qualifiedName) (rs.flatMap (·.enums)) e := by
  rw [enums_ofList, Table.mem_values_fill]

/-- The namespaces of a draft are those of the headers that declare something. -/
theorem mem_scopes_ofList {rs : List Recognized} {s : String} :
    s ∈ (ofList rs).registry.scopes ↔ ∃ r ∈ rs, r.contributes ∧ r.scope = some s := by
  induction rs using List.reverseRecOn with
  | nil => simp [ofList, empty, Registry.empty]
  | append_singleton rs r ih =>
    rw [ofList_append_singleton, mem_scopes_add, ih]
    simp [or_and_right, exists_or]

end Draft

end ChaiBind
