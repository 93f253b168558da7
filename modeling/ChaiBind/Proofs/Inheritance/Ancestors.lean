import ChaiBind.Proofs.Inheritance.Search

/-!
# The ancestors of a class

Without a cycle there is one way to give every class its ancestors: its bases,
and then the ancestors of each registered base (`Resolves`). `ancestors` finds
these whatever it knows already, as long as that is right (`finds_ancestors`).

* `Resolves.mem_iff`: the ancestors of a class are the names that it reaches.
* `closure_eq_resolved`: what `closure` says of the classes of a graph without a
  cycle, in order and as sets.
-/

namespace ChaiBind.Inheritance

variable {g : Inheritance}

theorem nodup_eraseDups {α : Type} [DecidableEq α] : ∀ l : List α, l.eraseDups.Nodup
  | [] => List.nodup_nil
  | a :: l => by
    rw [List.eraseDups_cons, List.nodup_cons, List.mem_eraseDups]
    exact ⟨by simp, nodup_eraseDups _⟩
termination_by l => l.length
decreasing_by exact Nat.lt_succ_of_le (List.length_filter_le ..)

/-- Every class has as ancestors its bases in order and then the ancestors of each registered base,
each name at its first place only. -/
def Resolves (g : Inheritance) (resolved : String → List String) : Prop :=
  ∀ name, resolved name =
    (g.basesOf name ++ (g.registeredBases name).flatMap resolved).eraseDups

theorem exists_resolves (h : WellFounded fun b a => g.Extends a b) :
    ∃ resolved, g.Resolves resolved := by
  refine ⟨h.fix fun name rec => (g.basesOf name ++
    (g.registeredBases name).attach.flatMap fun b => rec b.1 b.2).eraseDups, fun name => ?_⟩
  rw [h.fix_eq]
  simp only [List.flatMap_subtype, List.unattach_attach]

namespace Resolves

variable {resolved : String → List String} (hr : g.Resolves resolved)

include hr

theorem nodup (name : String) : (resolved name).Nodup := by
  rw [hr name]
  exact nodup_eraseDups _

theorem mem_iff_base {name x : String} : x ∈ resolved name ↔
    x ∈ g.basesOf name ∨ ∃ b, g.Extends name b ∧ x ∈ resolved b := by
  rw [hr name, List.mem_eraseDups, List.mem_append, List.mem_flatMap]
  rfl

/-- A name is an ancestor of a class if and only if bases lead from the class to it. -/
theorem mem_iff (h : WellFounded fun b a => g.Extends a b) {name x : String} :
    x ∈ resolved name ↔ Relation.TransGen (fun a b => b ∈ g.basesOf a) name x := by
  induction name using h.induction with
  | _ name ih =>
    rw [hr.mem_iff_base, Relation.TransGen.head'_iff]
    constructor
    · rintro (hx | ⟨b, hb, hx⟩)
      · exact ⟨x, hx, .refl⟩
      · exact ⟨b, (extends_iff.1 hb).1, ((ih b hb).1 hx).to_reflTransGen⟩
    · rintro ⟨b, hb, hx⟩
      rcases Relation.reflTransGen_iff_eq_or_transGen.1 hx with rfl | hx
      · exact .inl hb
      -- a base that leads on has bases of its own and is therefore registered
      · obtain ⟨c, hc, -⟩ := Relation.TransGen.head'_iff.1 hx
        have he : g.Extends name b := extends_iff.2 ⟨hb, contains_of_mem_basesOf hc⟩
        exact .inr ⟨b, he, (ih b he).2 hx⟩

end Resolves

/-- What leads to a registered class leads over registered classes. -/
theorem transGen_extends {a x : String}
    (h : Relation.TransGen (fun a b => b ∈ g.basesOf a) a x) (hx : g.contains x) :
    Relation.TransGen g.Extends a x := by
  induction h with
  | single hb => exact .single (extends_iff.2 ⟨hb, hx⟩)
  | tail _ hb ih => exact (ih (contains_of_mem_basesOf hb)).tail (extends_iff.2 ⟨hb, hx⟩)

/-! ## Finding them -/

/-- All that is known is right. -/
def Right (resolved : String → List String) (known : Known) : Prop :=
  ∀ x found, known.get? x = some found → found = resolved x

/-- A search has found the ancestors of some names, and knows them now beside those that it knew. -/
structure Finds (resolved : String → List String) (known : Known) (names : List String)
    (r : List String × Known) : Prop where
  found : r.1 = names.flatMap resolved
  right : Right resolved r.2
  knows : ∀ x ∈ names, r.2.get? x = some (resolved x)
  keeps : ∀ x, known.get? x = some (resolved x) → r.2.get? x = some (resolved x)

theorem finds_gather {resolved : String → List String}
    {search : Known → String → List String × Known} {names : List String}
    (hs : ∀ name ∈ names, ∀ known, Right resolved known →
      Finds resolved known [name] (search known name))
    {known : Known} (hk : Right resolved known) :
    Finds resolved known names (gather search known names) := by
  induction names generalizing known with
  | nil => exact ⟨rfl, hk, by simp, fun _ h => h⟩
  | cons name names ih =>
    have hname := hs name List.mem_cons_self known hk
    have hrest := ih (fun x hx => hs x (List.mem_cons_of_mem _ hx)) hname.right
    refine ⟨?_, hrest.right, fun x hx => ?_, fun x hx => hrest.keeps x (hname.keeps x hx)⟩
    · simp only [gather, hname.found, hrest.found, List.flatMap_cons, List.flatMap_nil,
        List.append_nil]
    · rcases List.mem_cons.1 hx with rfl | hx
      · exact hrest.keeps x (hname.knows x (by simp))
      · exact hrest.knows x hx

/-- `ancestors` finds the ancestors of a class whatever is known, if that is right and calls are
not nested deeper than its depth. -/
theorem finds_ancestors {resolved : String → List String} (hr : g.Resolves resolved) {n : Nat}
    {name : String} (hn : g.CallsWithin n name) {known : Known} (hk : Right resolved known) :
    Finds resolved known [name] (g.ancestors n known name) := by
  induction n generalizing name known with
  | zero => exact absurd hn (not_callsWithin_zero name)
  | succ n ih =>
    rw [ancestors]
    split
    · rename_i found hf
      have := hk name found hf
      exact ⟨by simp [this], hk, by simp [hf, this], fun _ h => h⟩
    · have hbases := finds_gather (fun base hb known hk => ih (hn.base hb) hk) hk
      generalize gather (g.ancestors n) known (g.registeredBases name) = r at hbases
      obtain ⟨inherited, known'⟩ := r
      obtain ⟨rfl, hright, -, hkeeps⟩ := hbases
      dsimp only at hright hkeeps ⊢
      rw [← hr name]
      refine ⟨by simp, fun x found hx => ?_, fun x hx => ?_, fun x hx => ?_⟩
      · rw [Table.get?_insert] at hx
        split at hx
        · rw [← Option.some.inj hx, ‹x = name›]
        · exact hright x found hx
      · rw [Table.get?_insert, List.mem_singleton.1 hx, if_pos rfl]
      · rw [Table.get?_insert]
        split
        · rw [‹x = name›]
        · exact hkeeps x hx

/-- What `closure` finds are the ancestors of the registered classes. -/
theorem get?_closure {resolved : String → List String} (hr : g.Resolves resolved)
    (hw : WellFounded fun b a => g.Extends a b) {found : Table String (List String)}
    (hf : g.closure = .ok found) {c : String} :
    found.get? c = if g.contains c then some (resolved c) else none := by
  have hall : Finds resolved Table.empty g.classes
      (gather (g.ancestors g.bases.size) Table.empty g.classes) :=
    finds_gather
      (fun name hn known hk => finds_ancestors hr (callsWithin_size hw (contains_iff.2 hn)) hk)
      (fun x found hx => by simp at hx)
  rw [← (closure_eq_ok_iff.1 hf).2, Table.get?_mapValues]
  split
  · rename_i hc
    obtain ⟨bases, hb⟩ := Option.isSome_iff_exists.1 hc
    rw [hb, Option.map_some, hall.knows c (contains_iff.1 hc), Option.getD_some]
  · rename_i hc
    rw [contains, Table.contains, Bool.not_eq_true, Option.isSome_eq_false_iff,
      Option.isNone_iff_eq_none] at hc
    rw [hc, Option.map_none]

/-- In a graph without a cycle all registered classes, in the order of their registration, have
ancestors. Those of a class are distinct, do not hold the class, are the names that it reaches by
bases, and stand in the order of the declarations; and it makes no difference which ancestors are
known when they are looked for. -/
theorem closure_eq_resolved (g : Inheritance)
    (h : ¬ ∃ x, g.contains x ∧ Relation.TransGen g.Extends x x) :
    ∃ found, g.closure = .ok found ∧ found.keys = g.classes ∧
      ∀ c, g.contains c → ∃ l, found.get? c = some l ∧ l.Nodup ∧ c ∉ l ∧
        (∀ x, x ∈ l ↔ Relation.TransGen (fun a b => b ∈ g.basesOf a) c x) ∧
        l = (g.basesOf c ++
          (g.registeredBases c).flatMap fun b => (found.get? b).getD []).eraseDups ∧
        ∀ known : Known, (∀ x m, known.get? x = some m → found.get? x = some m) →
          (g.ancestors g.bases.size known c).1 = l := by
  have hs := g.settles_finishOrder
  cases ho : g.finishOrder with
  | error c =>
    rw [ho] at hs
    exact absurd (IsCycle.exists_transGen hs) h
  | ok order =>
    have hw := wellFounded_extends ho
    obtain ⟨resolved, hr⟩ := exists_resolves hw
    obtain ⟨found, hf⟩ : ∃ found, g.closure = .ok found :=
      ⟨_, closure_eq_ok_iff.2 ⟨⟨order, ho⟩, rfl⟩⟩
    have hget := fun c => get?_closure hr hw hf (c := c)
    refine ⟨found, hf, ?_, fun c hc => ⟨resolved c, ?_, hr.nodup c, fun hm => ?_,
      fun x => hr.mem_iff hw, ?_, fun known hk => ?_⟩⟩
    · rw [← (closure_eq_ok_iff.1 hf).2, Table.keys_mapValues]
      rfl
    · rw [hget, if_pos hc]
    · exact not_transGen_self hw c (transGen_extends ((hr.mem_iff hw).1 hm) hc)
    · have hb : ∀ b ∈ g.registeredBases c, (found.get? b).getD [] = resolved b := fun b hb => by
        rw [hget, if_pos (extends_iff.1 hb).2, Option.getD_some]
      rw [hr c, List.flatMap_congr hb]
    · have hright : Right resolved known := fun x m hx => by
        have := hk x m hx
        rw [hget] at this
        split at this
        · exact (Option.some.inj this).symm
        · cases this
      simpa using (finds_ancestors hr (callsWithin_size hw hc) hright).found

/-- A class that has a base twice, and reaches another class in two ways. -/
def diamond : Inheritance :=
  (((empty.add "D" ["B", "C", "B"]).add "B" ["A", "X"]).add "C" ["A"]).add "A" []

theorem closure_diamond :
    (¬ ∃ x, diamond.contains x ∧ Relation.TransGen diamond.Extends x x) ∧
      ∃ found, diamond.closure = .ok found ∧ found.keys = ["D", "B", "C", "A"] ∧
        ∃ l, found.get? "D" = some l ∧ l.Nodup ∧ "D" ∉ l := by
  have ho : diamond.finishOrder = .ok ["A", "B", "C", "D"] := rfl
  have h : ¬ ∃ x, diamond.contains x ∧ Relation.TransGen diamond.Extends x x := fun ⟨x, _, hx⟩ =>
    not_transGen_self (wellFounded_extends ho) x hx
  obtain ⟨found, hf, hkeys, hall⟩ := closure_eq_resolved diamond h
  obtain ⟨l, hget, hnodup, hself, -⟩ := hall "D" rfl
  exact ⟨h, found, hf, hkeys, l, hget, hnodup, hself⟩

example : diamond.closure = .ok (Table.ofList
    [("D", ["B", "C", "A", "X"]), ("B", ["A", "X"]), ("C", ["A"]), ("A", [])]) := rfl

end ChaiBind.Inheritance
