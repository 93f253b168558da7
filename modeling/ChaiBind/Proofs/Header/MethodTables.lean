import ChaiBind.Proofs.Header.MemberTable
import ChaiBind.Proofs.Registry.Keys

/-!
# Tables of methods

The table of some members has their names in the order in which they first come, each with the
overloads of all its members (`entries_tableOf`). The members of two lists, one after the other,
have the two tables joined: a name of both has the overloads of both, and the names of the first
table come first (`tableOf_append`).
-/

namespace ChaiBind

namespace MethodTable

/-- The names of a table with their overloads and those that another table adds to them, then the
other names of that table. -/
def append (t u : MethodTable) : MethodTable where
  entries := t.entries.map (fun e => (e.1, e.2 ++ (u.get? e.1).getD [])) ++
    u.entries.filter fun e => e.1 ∉ t.keys
  nodup := by
    rw [List.map_append, List.map_map, List.nodup_append]
    refine ⟨t.nodup, u.nodup.sublist (List.Sublist.map _ List.filter_sublist), ?_⟩
    rintro name hname _ hother rfl
    obtain ⟨e, he, rfl⟩ := List.mem_map.1 hother
    exact of_decide_eq_true (List.mem_filter.1 he).2 hname

theorem keys_append (t u : MethodTable) :
    (t.append u).keys = t.keys ++ u.keys.filter (· ∉ t.keys) := by
  rw [Table.keys, append, List.map_append, List.map_map, Table.keys, Table.keys, List.filter_map]
  rfl

theorem get?_append (t u : MethodTable) (name : String) :
    (t.append u).get? name =
      (t.get? name).elim (u.get? name) fun os => some (os ++ (u.get? name).getD []) := by
  cases ht : t.get? name with
  | some os =>
    refine Table.get?_eq_some_iff.2 (List.mem_append_left _ (List.mem_map.2 ?_))
    exact ⟨(name, os), Table.get?_eq_some_iff.1 ht, rfl⟩
  | none =>
    have hnew : name ∉ t.keys := Table.get?_eq_none_iff.1 ht
    cases hu : u.get? name with
    | some os =>
      refine Table.get?_eq_some_iff.2 (List.mem_append_right _ (List.mem_filter.2 ?_))
      exact ⟨Table.get?_eq_some_iff.1 hu, decide_eq_true hnew⟩
    | none =>
      refine Table.get?_eq_none_iff.2 ?_
      rw [keys_append, List.mem_append, not_or]
      exact ⟨hnew, fun h => Table.get?_eq_none_iff.1 hu (List.mem_filter.1 h).1⟩

theorem append_empty (t : MethodTable) : t.append Table.empty = t := by
  refine Table.ext_get? ?_ fun name => ?_
  · rw [keys_append]
    exact List.append_nil _
  · rw [get?_append]
    cases t.get? name with
    | none => rfl
    | some os => exact congrArg some (List.append_nil os)

theorem empty_append (t : MethodTable) : append Table.empty t = t := by
  refine Table.ext_get? ?_ fun name => ?_
  · rw [keys_append]
    exact List.filter_eq_self.2 fun _ _ => rfl
  · rw [get?_append]
    rfl

theorem keys_push (t : MethodTable) (name : String) (o : Overload) :
    (t.push name o).keys = if name ∈ t.keys then t.keys else t.keys ++ [name] :=
  t.keys_alter name _

/-- One more overload of the second table is one more overload of both together. -/
theorem append_push (t u : MethodTable) (name : String) (o : Overload) :
    t.append (u.push name o) = (t.append u).push name o := by
  refine Table.ext_get? ?_ fun k => ?_
  · rw [keys_append, keys_push, keys_push, keys_append]
    by_cases hu : name ∈ u.keys <;> by_cases ht : name ∈ t.keys <;> simp [hu, ht]
  · rw [get?_append, get?_push, get?_push, get?_append, get?_append]
    by_cases hk : k = name
    · subst hk
      cases t.get? k with
      | none => rfl
      | some os => simp
    · rw [if_neg hk, if_neg hk]

end MethodTable

namespace Header

theorem tableOf_append_singleton (members : List (String × Overload)) (m : String × Overload) :
    tableOf (members ++ [m]) = (tableOf members).push m.1 m.2 := by
  rw [tableOf, List.foldl_append]
  rfl

theorem tableOf_append (xs ys : List (String × Overload)) :
    tableOf (xs ++ ys) = (tableOf xs).append (tableOf ys) := by
  induction ys using List.reverseRecOn with
  | nil =>
    rw [List.append_nil]
    exact (MethodTable.append_empty _).symm
  | append_singleton ys m ih =>
    rw [← List.append_assoc, tableOf_append_singleton, ih, tableOf_append_singleton,
      MethodTable.append_push]

theorem keys_tableOf (members : List (String × Overload)) :
    (tableOf members).keys = (members.map Prod.fst).eraseDups := by
  induction members using List.reverseRecOn with
  | nil => rfl
  | append_singleton members m ih =>
    rw [tableOf_append_singleton, MethodTable.keys_push, ih, List.map_append, List.eraseDups_append]
    by_cases hm : m.1 ∈ members.map Prod.fst <;>
      simp [hm, List.removeAll, List.eraseDups_cons]

theorem overloadsNamed_ne_nil {members : List (String × Overload)} {name : String}
    (h : name ∈ members.map Prod.fst) : overloadsNamed name members ≠ [] := by
  obtain ⟨m, hm, rfl⟩ := List.mem_map.1 h
  exact List.ne_nil_of_mem (List.mem_map_of_mem (List.mem_filter.2 ⟨hm, decide_eq_true rfl⟩))

/-- The names come in the order of their first members, each with the overloads of all its
members. -/
theorem entries_tableOf (members : List (String × Overload)) :
    (tableOf members).entries =
      (members.map Prod.fst).eraseDups.map fun name => (name, overloadsNamed name members) := by
  rw [Table.entries_eq_filterMap, keys_tableOf]
  refine (List.filterMap_congr fun name hname => ?_).trans (congrFun List.filterMap_eq_map _)
  rw [get?_tableOf, if_neg (overloadsNamed_ne_nil (List.mem_eraseDups.1 hname))]
  rfl

end Header

end ChaiBind
