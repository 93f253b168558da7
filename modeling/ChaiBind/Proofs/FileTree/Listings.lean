import ChaiBind.Proofs.FileTree.ShownPaths

/-!
# What a walk without links lists

Without links below a directory a walk succeeds, and shows the files there (`walkFrom_eq_ok`). They
are listed by what lies in each directory: every file once, in the order of the names on the way to
it (`mem_filesBelow_iff`, `pairwise_filesBelow`), which is that of the paths under which they are shown
(`pairwise_precedes_filesBelow`). This is known of a directory once it is known of those in it
(`directory_induction`).
-/

namespace ChaiBind.FileTree

variable {t t' : FileTree}

/-! ## Files below a directory -/

/-- The names on the way from a directory to each file below it, files and directories in the order
of their names. -/
def filesBelow (t : FileTree) (a : Address) : List Address :=
  (t.children a).attach.flatMap fun ⟨(name, entry), _⟩ =>
    match entry with
    | .file _ => [[name]]
    | .directory => (t.filesBelow (a ++ [name])).map (name :: ·)
    | .link _ => []
termination_by t.depth - a.length
decreasing_by
  rename_i hchild
  have hlt := length_lt_depth_of_mem_children hchild
  simp only [List.length_append, List.length_singleton]
  omega

/-- The files at one entry of a directory. -/
def filesAt (t : FileTree) (a : Address) (c : String × Entry) : List Address :=
  match c.2 with
  | .file _ => [[c.1]]
  | .directory => (t.filesBelow (a ++ [c.1])).map (c.1 :: ·)
  | .link _ => []

theorem filesBelow_eq (t : FileTree) (a : Address) :
    t.filesBelow a = (t.children a).flatMap (t.filesAt a) := by
  rw [filesBelow, List.flatMap_subtype (g := t.filesAt a), List.unattach_attach]
  rintro ⟨name, entry⟩ -
  cases entry <;> rfl

/-- What holds of a directory as soon as it holds of the directories in it holds of all. -/
theorem directory_induction {P : Address → Prop}
    (step : ∀ a, (∀ name, t.entry? (a ++ [name]) = some .directory → P (a ++ [name])) → P a)
    (a : Address) : P a :=
  step a fun name h =>
    have := length_lt_depth_of_mem_children (mem_children_iff.2 h)
    directory_induction step (a ++ [name])
termination_by t.depth - a.length
decreasing_by
  simp only [List.length_append, List.length_singleton]
  omega

/-- The files at an entry are the entry itself or what lies below it. -/
theorem mem_filesAt_iff {a b : Address} {name : String} {e : Entry} : b ∈ t.filesAt a (name, e) ↔
    (∃ content, e = .file content ∧ b = [name]) ∨
      e = .directory ∧ ∃ rest ∈ t.filesBelow (a ++ [name]), b = name :: rest := by
  cases e with
  | file content => simp [filesAt]
  | directory => simp [filesAt, eq_comm]
  | link target => simp [filesAt]

theorem exists_cons_of_mem_filesAt {a b : Address} {name : String} {e : Entry}
    (h : b ∈ t.filesAt a (name, e)) : ∃ rest, b = name :: rest := by
  rcases mem_filesAt_iff.1 h with ⟨_, -, rfl⟩ | ⟨-, rest, -, rfl⟩
  · exact ⟨[], rfl⟩
  · exact ⟨rest, rfl⟩

/-- The listing has exactly the files that lie below the directory. -/
theorem mem_filesBelow_iff (ht : t.Sound) {a : Address} (ha : t.entry? a = some .directory)
    (b : Address) : b ∈ t.filesBelow a ↔ ∃ content, t.entry? (a ++ b) = some (.file content) := by
  induction a using directory_induction (t := t) generalizing b with
  | step a ih =>
    rw [filesBelow_eq, List.mem_flatMap]
    simp only [Prod.exists, mem_children_iff, mem_filesAt_iff]
    constructor
    · rintro ⟨name, e, he, ⟨content, rfl, rfl⟩ | ⟨rfl, rest, hrest, rfl⟩⟩
      · exact ⟨content, he⟩
      · rw [List.append_cons]
        exact (ih name he he rest).1 hrest
    · rintro ⟨content, hfile⟩
      cases b with
      | nil =>
        rw [List.append_nil, ha] at hfile
        cases hfile
      | cons name rest =>
        rw [List.append_cons] at hfile
        by_cases hrest : rest = []
        · subst hrest
          rw [List.append_nil] at hfile
          exact ⟨name, _, hfile, .inl ⟨content, rfl, rfl⟩⟩
        · have hdirectory := ht.directory_of_append hrest hfile
          refine ⟨name, _, hdirectory, .inr ⟨rfl, rest, ?_, rfl⟩⟩
          exact (ih name hdirectory hdirectory rest).2 ⟨content, hfile⟩

/-- The listing is in the order of names, and so it has every file once. -/
theorem pairwise_filesBelow (t : FileTree) (a : Address) : (t.filesBelow a).Pairwise (· < ·) := by
  induction a using directory_induction (t := t) with
  | step a ih =>
    rw [filesBelow_eq, List.pairwise_flatMap]
    constructor
    · rintro ⟨name, e⟩ hc
      cases e with
      | file content => exact List.pairwise_singleton _ _
      | directory =>
        refine List.pairwise_map.2 ((ih name (mem_children_iff.1 hc)).imp fun hlt => ?_)
        exact List.cons_lt_cons_iff.2 (.inr ⟨rfl, hlt⟩)
      | link target => exact List.Pairwise.nil
    · -- Below different entries the first names decide.
      refine (t.pairwise_children a).imp ?_
      rintro ⟨name, e⟩ ⟨name', e'⟩ hlt b hb b' hb'
      obtain ⟨rest, rfl⟩ := exists_cons_of_mem_filesAt hb
      obtain ⟨rest', rfl⟩ := exists_cons_of_mem_filesAt hb'
      exact List.cons_lt_cons_iff.2 (.inl hlt)

/-- Listings with the same files are the same. -/
theorem filesBelow_congr {a : Address} (h : ∀ b, b ∈ t'.filesBelow a ↔ b ∈ t.filesBelow a) :
    t'.filesBelow a = t.filesBelow a := by
  have hnodup : ∀ t : FileTree, (t.filesBelow a).Nodup := fun t => by
    refine (t.pairwise_filesBelow a).imp fun {b b'} hlt => ?_
    rintro rfl
    exact List.lt_irrefl b hlt
  have hperm := (List.perm_ext_iff_of_nodup (hnodup t') (hnodup t)).2 h
  refine hperm.eq_of_pairwise (fun b b' _ _ hlt hgt => ?_) (t'.pairwise_filesBelow a)
    (t.pairwise_filesBelow a)
  exact absurd (List.lt_trans hlt hgt) (List.lt_irrefl b)

/-- Shown below a path that is not empty, files are in the order of paths. -/
theorem pairwise_precedes_filesBelow (ht : t.Sound) {a : Address}
    (ha : t.entry? a = some .directory) {shown : String} (hshown : shown ≠ "") :
    ((t.filesBelow a).map (shownBelow shown)).Pairwise Path.Precedes := by
  rw [List.pairwise_map]
  refine (t.pairwise_filesBelow a).imp_of_mem fun {b b'} hb hb' hlt => ?_
  obtain ⟨_, hfile⟩ := (mem_filesBelow_iff ht ha b).1 hb
  obtain ⟨_, hfile'⟩ := (mem_filesBelow_iff ht ha b').1 hb'
  apply precedes_shownBelow hshown _ _ hlt
  · exact ht.isName_of_mem_below hfile
  · exact ht.isName_of_mem_below hfile'

/-! ## Walks -/

theorem mapM_eq_ok {ε α β : Type} {f : α → Except ε β} {g : α → β} {l : List α}
    (h : ∀ x ∈ l, f x = .ok (g x)) : l.mapM f = .ok (l.map g) := by
  induction l with
  | nil => rfl
  | cons x l ih =>
    rw [List.forall_mem_cons] at h
    rw [List.mapM_cons, h.1, ih h.2]
    rfl

/-- A walk that meets no link shows all files. -/
theorem walkFrom_eq_ok {links : Nat} {a : Address}
    (hlinks : ∀ b target, t.entry? (a ++ b) ≠ some (.link target)) (shown : String)
    (around : List (String × Address)) :
    t.walkFrom links shown a around = .ok ((t.filesBelow a).map (shownBelow shown)) := by
  induction a using directory_induction (t := t) generalizing shown around with
  | step a ih =>
    have hvisit : ∀ c ∈ t.children a, t.visit links shown a around c =
        .ok ((t.filesAt a c).map (shownBelow shown)) := by
      rintro ⟨name, e⟩ hc
      have he := mem_children_iff.1 hc
      cases e with
      | file content => rfl
      | directory =>
        have hbelow := ih name he fun b target => by
          rw [← List.append_cons]
          exact hlinks (name :: b) target
        simp only [visit, hbelow, filesAt, List.map_map]
        rfl
      | link target => exact absurd he (hlinks [name] target)
    rw [walkFrom_eq, mapM_eq_ok hvisit, filesBelow_eq, List.map_flatMap, List.flatMap_def]
    rfl

end ChaiBind.FileTree
