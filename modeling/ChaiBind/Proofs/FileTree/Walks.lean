import ChaiBind.Proofs.FileTree.Edits
import ChaiBind.Proofs.Registry.Keys
import Mathlib.Data.List.Nodup
import Mathlib.Data.List.Perm.Basic

/-!
# Walks over a tree in which a file is written

A walk over a tree in which a file has been written, in directories that may be new, finds what it
found before, in the same order, and besides nothing but that file (`walk_writesAt`). What a walk
meets is shown under a path that leads there (`Shows`), so that the file is known by where its paths
lead, and the names in a directory are the same apart from those that are new (`filter_namesIn`).
-/

namespace ChaiBind.FileTree

variable {t t' : FileTree}

/-! ## Entries of a directory -/

theorem nameBelow?_eq_some_iff {a b : Address} {name : String} :
    nameBelow? a b = some name ↔ b = a ++ [name] := by
  cases b using List.reverseRecOn with
  | nil => simp [nameBelow?]
  | append_singleton b last =>
    simp only [nameBelow?, List.getLast?_concat, List.dropLast_concat]
    constructor
    · intro h
      split at h
      · rw [‹b = a›, Option.some.inj h]
      · cases h
    · intro h
      obtain ⟨rfl, hlast⟩ := List.append_inj' h rfl
      cases hlast
      rw [if_pos rfl]

theorem mem_children_iff {a : Address} {name : String} {e : Entry} :
    (name, e) ∈ t.children a ↔ t.entry? (a ++ [name]) = some e := by
  rw [children, List.mem_mergeSort, List.mem_filterMap, entry?_append_singleton]
  simp only [Option.map_eq_some_iff, nameBelow?_eq_some_iff, Prod.mk.injEq]
  constructor
  · rintro ⟨⟨b, e⟩, he, name, rfl, rfl, rfl⟩
    exact Table.get?_eq_some_iff.2 he
  · intro h
    exact ⟨⟨_, e⟩, Table.get?_eq_some_iff.1 h, name, rfl, rfl, rfl⟩

/-- The names in a directory. -/
def namesIn (t : FileTree) (a : Address) : List String := (t.children a).map Prod.fst

theorem mem_namesIn_iff {a : Address} {name : String} :
    name ∈ t.namesIn a ↔ ∃ e, t.entry? (a ++ [name]) = some e := by
  simp only [namesIn, List.mem_map, Prod.exists, exists_and_right, exists_eq_right,
    mem_children_iff]

theorem nodup_namesIn (t : FileTree) (a : Address) : (t.namesIn a).Nodup := by
  have hperm := (List.mergeSort_perm (t.entries.entries.filterMap fun e =>
    (nameBelow? a e.1).map (·, e.2)) nameLE).map Prod.fst
  have hnames : (t.entries.entries.filterMap fun e => (nameBelow? a e.1).map (·, e.2)).map Prod.fst =
      t.entries.keys.filterMap (nameBelow? a) := by
    rw [List.map_filterMap, Table.keys, List.filterMap_map]
    refine List.filterMap_congr fun e _ => ?_
    simp [Function.comp_def]
  rw [namesIn, children, hperm.nodup_iff, hnames]
  refine List.Nodup.filterMap (fun b c name hb hc => ?_) t.entries.nodup
  rw [nameBelow?_eq_some_iff.1 hb, nameBelow?_eq_some_iff.1 hc]

theorem pairwise_namesIn (t : FileTree) (a : Address) : (t.namesIn a).Pairwise (· ≤ ·) := by
  rw [namesIn, List.pairwise_map]
  have htrans : ∀ x y z, nameLE x y → nameLE y z → nameLE x z := fun x y z hxy hyz =>
    decide_eq_true (String.le_trans (of_decide_eq_true hxy) (of_decide_eq_true hyz))
  have htotal : ∀ x y, nameLE x y || nameLE y x := by
    simpa [nameLE] using fun x _ y _ => String.le_total x y
  have hsorted := List.pairwise_mergeSort htrans htotal
    (t.entries.entries.filterMap fun e => (nameBelow? a e.1).map (·, e.2))
  exact hsorted.imp fun hxy => of_decide_eq_true hxy

theorem pairwise_children (t : FileTree) (a : Address) :
    (t.children a).Pairwise fun c c' => c.1 < c'.1 := by
  have hle := List.pairwise_map.1 (t.pairwise_namesIn a)
  have hne := List.pairwise_map.1 (t.nodup_namesIn a)
  refine (hle.and hne).imp fun {c c'} h => ?_
  by_contra hlt
  exact h.2 (String.le_antisymm h.1 (String.not_lt.1 hlt))

/-- What lies in a directory is known as soon as it is in the order of names. -/
theorem children_eq_of_perm {a : Address} {l : List (String × Entry)}
    (hperm : (t.entries.entries.filterMap fun e => (nameBelow? a e.1).map (·, e.2)).Perm l)
    (hsorted : (l.map Prod.fst).Pairwise (· < ·)) : t.children a = l := by
  have hall : (t.children a).Perm l := (List.mergeSort_perm _ nameLE).trans hperm
  refine hall.eq_of_pairwise (fun c d _ _ hlt hgt => ?_) (t.pairwise_children a)
    (List.pairwise_map.1 hsorted)
  exact absurd hgt (String.lt_asymm hlt)

/-! ## One entry of a walk -/

/-- What a walk finds at one entry of a directory. -/
def visit (t : FileTree) (links : Nat) (shown : String) (a : Address)
    (around : List (String × Address)) (c : String × Entry) : Except WalkFault (List String) :=
  let path := Path.join shown c.1
  match c.2 with
  | .file _ => .ok [path]
  | .directory => t.walkFrom links path (a ++ [c.1]) ((path, a ++ [c.1]) :: around)
  | .link target =>
    match t.follow links a target with
    | .error e => .error (.unreachable path e)
    | .ok (.vacant .., _) => .error (.unreachable path .notFound)
    | .ok (.found b .directory, left) =>
      match around.find? (·.2 = b) with
      | some (ancestor, _) => .error (.loop path ancestor)
      | none => t.walkFrom left path b ((path, b) :: around)
    | .ok (.found .., _) => .ok [path]

theorem walkFrom_eq (t : FileTree) (links : Nat) (shown : String) (a : Address)
    (around : List (String × Address)) : t.walkFrom links shown a around =
      (fun found => found.flatten) <$> (t.children a).mapM (t.visit links shown a around) := by
  rw [walkFrom, List.mapM_subtype (g := t.visit links shown a around), List.unattach_attach]
  · rfl
  · rintro ⟨name, entry⟩ hchild
    cases entry with
    | file content => rfl
    | directory => rfl
    | link target =>
      dsimp only [visit]
      rcases t.follow links a target with err | ⟨⟨b, e⟩ | _, left⟩
      · rfl
      · cases e <;> rfl
      · rfl

theorem walkFrom_eq_ok_iff {links : Nat} {shown : String} {a : Address}
    {around : List (String × Address)} {paths : List String} :
    t.walkFrom links shown a around = .ok paths ↔
      ∃ found, (t.children a).mapM (t.visit links shown a around) = .ok found ∧
        found.flatten = paths := by
  rw [walkFrom_eq]
  cases (t.children a).mapM (t.visit links shown a around) with
  | error fault => exact ⟨nofun, nofun⟩
  | ok found =>
    show Except.ok found.flatten = Except.ok paths ↔ _
    simp only [Except.ok.injEq, exists_eq_left']

/-- How a walk comes to what it finds at an entry: a file, or a link to one, is found itself, and a
directory, or one behind a link that is not walked yet, is walked. -/
inductive Visits (t : FileTree) (links : Nat) (shown : String) (a : Address)
    (around : List (String × Address)) (name : String) : Entry → List String → Prop
  | file (content : ByteArray) : Visits t links shown a around name (.file content)
      [Path.join shown name]
  | directory {paths : List String}
      (hwalk : t.walkFrom links (Path.join shown name) (a ++ [name])
        ((Path.join shown name, a ++ [name]) :: around) = .ok paths) :
      Visits t links shown a around name .directory paths
  | linkToFile {target : String} {b : Address} {e : Entry} {left : Nat}
      (hfollow : t.follow links a target = .ok (.found b e, left)) (he : e ≠ .directory) :
      Visits t links shown a around name (.link target) [Path.join shown name]
  | linkToDirectory {target : String} {b : Address} {left : Nat} {paths : List String}
      (hfollow : t.follow links a target = .ok (.found b .directory, left))
      (hnew : around.find? (·.2 = b) = none)
      (hwalk : t.walkFrom left (Path.join shown name) b ((Path.join shown name, b) :: around) =
        .ok paths) :
      Visits t links shown a around name (.link target) paths

theorem visit_eq_ok_iff {links : Nat} {shown name : String} {a : Address}
    {around : List (String × Address)} {e : Entry} {paths : List String} :
    t.visit links shown a around (name, e) = .ok paths ↔
      t.Visits links shown a around name e paths := by
  constructor
  · intro h
    cases e with
    | file content =>
      cases h
      exact .file content
    | directory => exact .directory h
    | link target =>
      dsimp only [visit] at h
      split at h
      · cases h
      · cases h
      · split at h
        · cases h
        · exact .linkToDirectory ‹_› ‹_› h
      · rename_i hdirectory hfollow
        cases h
        exact .linkToFile hfollow hdirectory
  · intro h
    cases h with
    | file content => rfl
    | directory hwalk => exact hwalk
    | @linkToFile target b e left hfollow he =>
      dsimp only [visit]
      rw [hfollow]
      cases e with
      | directory => exact absurd rfl he
      | file content => rfl
      | link target => rfl
    | linkToDirectory hfollow hnew hwalk =>
      dsimp only [visit]
      rw [hfollow]
      dsimp only
      rw [hnew]
      exact hwalk

/-- A directory holds the same names as in a tree that has grown, apart from those that are new. -/
theorem filter_namesIn (h : t.Grows t') (a : Address) :
    (t'.namesIn a).filter (fun name => (t.entry? (a ++ [name])).isSome) = t.namesIn a := by
  have hmem : ∀ name, name ∈ (t'.namesIn a).filter (fun name => (t.entry? (a ++ [name])).isSome) ↔
      name ∈ t.namesIn a := by
    intro name
    rw [List.mem_filter, mem_namesIn_iff, mem_namesIn_iff, Option.isSome_iff_exists]
    constructor
    · exact And.right
    · rintro ⟨e, he⟩
      obtain ⟨e', he', -⟩ := h.keeps he
      exact ⟨⟨e', he'⟩, e, he⟩
  have hperm := (List.perm_ext_iff_of_nodup ((t'.nodup_namesIn a).filter _) (t.nodup_namesIn a)).2 hmem
  exact hperm.eq_of_pairwise (fun _ _ _ _ => String.le_antisymm)
    ((t'.pairwise_namesIn a).filter _) (t.pairwise_namesIn a)

/-! ## Lists of entries -/

theorem forall₂_of_mapM {ε α β : Type} {f : α → Except ε β} {l : List α} {ys : List β}
    (h : l.mapM f = .ok ys) : List.Forall₂ (fun x y => f x = .ok y) l ys := by
  induction l generalizing ys with
  | nil =>
    cases h
    exact .nil
  | cons x l ih =>
    rw [List.mapM_cons] at h
    cases hx : f x with
    | error err =>
      rw [hx] at h
      cases h
    | ok y =>
      rw [hx] at h
      cases hl : l.mapM f with
      | error err =>
        rw [hl] at h
        cases h
      | ok ys =>
        rw [hl] at h
        cases h
        exact .cons hx (ih hl)

/-- What is found along a list, and along a longer one whose further entries give nothing that
counts. -/
theorem mapM_longer {ε κ α γ : Type} (old : κ → Bool) {f f' : κ × α → Except ε (List γ)}
    {counts : γ → Bool} {l l' : List (κ × α)} (hkeys : (l'.map Prod.fst).filter old = l.map Prod.fst)
    (hnew : ∀ x ∈ l', old x.1 = false → ∃ r, f' x = .ok r ∧ r.filter counts = [])
    (hold : ∀ x ∈ l', ∀ y ∈ l, x.1 = y.1 → ∀ r, f y = .ok r →
      ∃ r', f' x = .ok r' ∧ r'.filter counts = r.filter counts)
    {rs : List (List γ)} (h : l.mapM f = .ok rs) :
    ∃ rs', l'.mapM f' = .ok rs' ∧ rs'.flatten.filter counts = rs.flatten.filter counts := by
  have hall := forall₂_of_mapM h
  clear h
  induction l' generalizing l rs with
  | nil =>
    obtain rfl := List.map_eq_nil_iff.1 hkeys.symm
    cases hall
    exact ⟨[], rfl, rfl⟩
  | cons x l' ih =>
    rw [List.map_cons] at hkeys
    cases hx : old x.1 with
    | false =>
      rw [List.filter_cons_of_neg (by simp [hx])] at hkeys
      obtain ⟨r, hr, hnone⟩ := hnew x List.mem_cons_self hx
      obtain ⟨rs', hrs', hsame⟩ := ih hkeys (fun x hx => hnew x (List.mem_cons_of_mem _ hx))
        (fun x hx => hold x (List.mem_cons_of_mem _ hx)) hall
      refine ⟨r :: rs', by rw [List.mapM_cons, hr, hrs']; rfl, ?_⟩
      rw [List.flatten_cons, List.filter_append, hnone, hsame, List.nil_append]
    | true =>
      rw [List.filter_cons_of_pos hx] at hkeys
      obtain ⟨y, l, rfl, hy, hkeys⟩ := List.map_eq_cons_iff.1 hkeys.symm
      cases hall with
      | cons hr hrs =>
        obtain ⟨r', hr', hsame⟩ := hold x List.mem_cons_self y List.mem_cons_self hy.symm _ hr
        obtain ⟨rs', hrs', hrest⟩ := ih hkeys.symm
          (fun x hx => hnew x (List.mem_cons_of_mem _ hx))
          (fun x hx y hy => hold x (List.mem_cons_of_mem _ hx) y (List.mem_cons_of_mem _ hy)) hrs
        refine ⟨r' :: rs', by rw [List.mapM_cons, hr', hrs']; rfl, ?_⟩
        rw [List.flatten_cons, List.flatten_cons, List.filter_append, List.filter_append, hsame,
          hrest]

/-! ## Paths of a walk -/

/-- A path leads to a directory, with some links left, if its length does not matter. -/
structure Shows (t : FileTree) (shown : String) (a : Address) (links : Nat) : Prop where
  nonempty : shown ≠ ""
  way : t.Way .look maxLinks (startOf shown.toList t.workingDirectory) (innerSteps shown.toList)
    (.found a .directory) links

theorem shows_of_resolve {path : String} {a : Address} {links : Nat}
    (h : t.resolve .look path = .ok (.found a .directory, links)) : t.Shows path a links := by
  obtain ⟨husable, hway⟩ := resolve_eq_ok_iff.1 h
  refine ⟨husable.nonempty, ?_⟩
  rw [stepsOf_eq] at hway
  split at hway
  · exact hway.of_settle.1
  · rwa [List.append_nil] at hway

namespace Shows

variable {shown : String} {a b : Address} {links left : Nat} {name : String} {e : Entry}

/-- A directory that is met in a walk. -/
theorem join (h : t.Shows shown a links) (hname : IsName name)
    (hway : t.Way .look links a [.down name] (.found b .directory) left) :
    t.Shows (Path.join shown name) b left := by
  refine ⟨join_ne_empty h.nonempty name, ?_⟩
  rw [startOf_join h.nonempty, innerSteps_join shown hname]
  exact h.way.append hway

/-- Whatever is met in a walk lies where its path leads, if that leads anywhere. -/
theorem canonical?_join (h : t.Shows shown a links) (hname : IsName name)
    (hway : t.Way .look links a [.down name] (.found b e) left)
    (hleads : t.leads (Path.join shown name)) : t.canonical? (Path.join shown name) = some b := by
  obtain ⟨b', e', hfind⟩ := leads_iff.1 hleads
  obtain ⟨left', hr⟩ := find_eq_ok_iff.1 hfind
  obtain ⟨-, hfound⟩ := resolve_eq_ok_iff.1 hr
  have hjoined := h.way.append hway
  rw [startOf_join h.nonempty, stepsOf_join shown hname] at hfound
  have hsame := (resolveFrom_of_way hjoined).symm.trans (resolveFrom_of_way hfound)
  cases hsame
  exact canonical?_eq_some_iff.2 ⟨_, hfind⟩

end Shows

theorem way_of_child {a : Address} {name : String} {e : Entry}
    (ha : t.entry? a = some .directory) (hname : IsName name)
    (he : t.entry? (a ++ [name]) = some e) (hne : ∀ target, e ≠ .link target) (links : Nat) :
    t.Way .look links a [.down name] (.found (a ++ [name]) e) links :=
  .down ⟨ha, hname.short, nofun⟩ he hne (.arrived he)

theorem way_of_follow {a b : Address} {name target : String} {e : Entry} {links left : Nat}
    (ha : t.entry? a = some .directory) (hname : IsName name)
    (he : t.entry? (a ++ [name]) = some (.link target))
    (h : t.follow links a target = .ok (.found b e, left)) :
    t.Way .look links a [.down name] (.found b e) left := by
  cases links with
  | zero => cases h
  | succ links =>
    refine .follow ⟨ha, hname.short, nofun⟩ he nofun ?_
    rw [List.append_nil]
    exact way_of_resolveFrom h

theorem Grows.follow (hg : t.Grows t') {a b : Address} {target : String} {e : Entry}
    {links left : Nat} (h : t.follow links a target = .ok (.found b e, left)) :
    ∃ e', t'.follow links a target = .ok (.found b e', left) ∧ SameKind e e' := by
  cases links with
  | zero => cases h
  | succ links =>
    obtain ⟨e', hway, hkind⟩ := (way_of_resolveFrom h).grows hg
    exact ⟨e', resolveFrom_of_way hway, hkind⟩

/-! ## A file in the tree -/

/-- A path leads somewhere, but not to an address. -/
def leadsElsewhere (t : FileTree) (out : Address) (path : String) : Bool :=
  match t.canonical? path with
  | some a => a ≠ out
  | none => false

theorem leadsElsewhere_eq_false {out : Address} {path : String}
    (h : t.leads path → t.canonical? path = some out) : t.leadsElsewhere out path = false := by
  unfold leadsElsewhere
  cases hc : t.canonical? path with
  | none => rfl
  | some a =>
    obtain ⟨e, hfind⟩ := canonical?_eq_some_iff.1 hc
    rw [h (leads_iff.2 ⟨a, e, hfind⟩)] at hc
    simp [Option.some.inj hc]

section

variable {out : Address} {content : ByteArray} (hw : t.WritesAt t' out content) (ht' : t'.Sound)
include hw ht'

/-- An entry that was not there is a directory or the file. -/
theorem visit_new {links : Nat} {shown name : String} {a : Address} {e : Entry}
    {around : List (String × Address)} (hshows : t'.Shows shown a links)
    (ha : t'.entry? a = some .directory) (hnone : t.entry? (a ++ [name]) = none)
    (he : t'.entry? (a ++ [name]) = some e)
    (hdirectory : t'.entry? (a ++ [name]) = some .directory →
      ∃ paths, t'.walkFrom links (Path.join shown name) (a ++ [name])
          ((Path.join shown name, a ++ [name]) :: around) = .ok paths ∧
        paths.filter (t'.leadsElsewhere out) = []) :
    ∃ paths, t'.visit links shown a around (name, e) = .ok paths ∧
      paths.filter (t'.leadsElsewhere out) = [] := by
  by_cases hout : a ++ [name] = out
  · subst hout
    rw [hw.written] at he
    cases he
    refine ⟨_, rfl, ?_⟩
    have hway := way_of_child ha (ht'.isName hw.written) hw.written nofun links
    have hcanonical := hshows.canonical?_join (ht'.isName hw.written) hway
    rw [List.filter_cons_of_neg (by rw [leadsElsewhere_eq_false hcanonical]; nofun), List.filter_nil]
  · cases hw.adds hout hnone he
    exact hdirectory he

/-- In a directory that was not there a walk finds nothing but the file. -/
theorem walkFrom_new (ht : t.Sound) {links : Nat} {shown : String} {a : Address}
    {around : List (String × Address)} (hshows : t'.Shows shown a links)
    (hnone : t.entry? a = none) (ha : t'.entry? a = some .directory) :
    ∃ paths, t'.walkFrom links shown a around = .ok paths ∧
      paths.filter (t'.leadsElsewhere out) = [] := by
  have hall : ∀ c ∈ t'.children a, ∃ paths, t'.visit links shown a around c = .ok paths ∧
      paths.filter (t'.leadsElsewhere out) = [] := by
    rintro ⟨name, e⟩ hc
    have he := mem_children_iff.1 hc
    have hbelow := ht.entry?_append_eq_none hnone [name]
    refine visit_new hw ht' hshows ha hbelow he fun hdirectory => ?_
    have hname := ht'.isName he
    exact walkFrom_new ht (hshows.join hname (way_of_child ha hname hdirectory nofun links)) hbelow
      hdirectory
  obtain ⟨found, hfound, hnothing⟩ := mapM_longer (fun _ => false)
    (f := t'.visit links shown a around) (l := []) (by simp) (fun c hc _ => hall c hc) nofun rfl
  exact ⟨found.flatten, walkFrom_eq_ok_iff.2 ⟨found, hfound, rfl⟩, hnothing⟩
termination_by t'.depth - a.length
decreasing_by
  have hlt := length_lt_depth_of_mem_children hc
  simp only [List.length_append, List.length_singleton]
  omega

/-- A walk finds what it found before the file was written, and the file besides. -/
theorem walkFrom_writesAt (ht : t.Sound) {links : Nat} {shown : String} {a : Address}
    {around : List (String × Address)} {paths : List String} (hshows : t'.Shows shown a links)
    (ha : t.entry? a = some .directory) (h : t.walkFrom links shown a around = .ok paths) :
    ∃ paths', t'.walkFrom links shown a around = .ok paths' ∧
      paths'.filter (t'.leadsElsewhere out) = paths.filter (t'.leadsElsewhere out) := by
  have hgrows := hw.grows
  have ha' := hgrows.directory ha
  obtain ⟨found, hfound, rfl⟩ := walkFrom_eq_ok_iff.1 h
  have hnew : ∀ c ∈ t'.children a, (t.entry? (a ++ [c.1])).isSome = false →
      ∃ paths, t'.visit links shown a around c = .ok paths ∧
        paths.filter (t'.leadsElsewhere out) = [] := by
    rintro ⟨name, e⟩ hc hnone
    have he := mem_children_iff.1 hc
    rw [Option.isSome_eq_false_iff, Option.isNone_iff_eq_none] at hnone
    refine visit_new hw ht' hshows ha' hnone he fun hdirectory => ?_
    have hname := ht'.isName he
    exact walkFrom_new hw ht' ht
      (hshows.join hname (way_of_child ha' hname hdirectory nofun links)) hnone hdirectory
  have hold : ∀ c' ∈ t'.children a, ∀ c ∈ t.children a, c'.1 = c.1 → ∀ paths,
      t.visit links shown a around c = .ok paths →
      ∃ paths', t'.visit links shown a around c' = .ok paths' ∧
        paths'.filter (t'.leadsElsewhere out) = paths.filter (t'.leadsElsewhere out) := by
    rintro ⟨name, e'⟩ hc' ⟨_, e⟩ hc rfl paths hvisit
    have he := mem_children_iff.1 hc
    have he' := mem_children_iff.1 hc'
    have hname := ht.isName he
    have hkind : SameKind e e' := by
      obtain ⟨e'', hkept, hkind⟩ := hgrows.keeps he
      rwa [Option.some.inj (he'.symm.trans hkept)]
    simp only [visit_eq_ok_iff] at hvisit ⊢
    cases hvisit with
    | file content =>
      cases hkind
      exact ⟨_, .file _, rfl⟩
    | directory hwalk =>
      cases hkind
      obtain ⟨paths', hwalk', hsame⟩ := walkFrom_writesAt ht
        (hshows.join hname (way_of_child ha' hname he' nofun links)) he hwalk
      exact ⟨paths', .directory hwalk', hsame⟩
    | linkToFile hfollow hfile =>
      cases hkind
      obtain ⟨g, hfollow', hkind⟩ := hgrows.follow hfollow
      exact ⟨_, .linkToFile hfollow' (hkind.ne_directory hfile), rfl⟩
    | linkToDirectory hfollow hnone hwalk =>
      cases hkind
      obtain ⟨g, hfollow', hkind⟩ := hgrows.follow hfollow
      cases hkind
      obtain ⟨paths', hwalk', hsame⟩ := walkFrom_writesAt ht
        (hshows.join hname (way_of_follow ha' hname he' hfollow'))
        (way_of_follow ha hname he hfollow).entry?_of_found hwalk
      exact ⟨paths', .linkToDirectory hfollow' hnone hwalk', hsame⟩
  obtain ⟨found', hfound', hsame⟩ := mapM_longer _ (filter_namesIn hgrows a) hnew hold hfound
  exact ⟨found'.flatten, walkFrom_eq_ok_iff.2 ⟨found', hfound', rfl⟩, hsame⟩
termination_by (links, t.depth - a.length)
decreasing_by
  · have hlt := length_lt_depth_of_mem_children hc
    refine Prod.Lex.right _ ?_
    simp only [List.length_append, List.length_singleton]
    omega
  · exact Prod.Lex.left _ _ (links_follow_lt hfollow)

/-- The same for all files below the directory at a path. -/
theorem walk_writesAt (ht : t.Sound) {path : String} {paths : List String}
    (hdirectory : t.isDirectory path) (h : t.walk path = .ok paths) :
    ∃ paths', t'.walk path = .ok paths' ∧
      paths'.filter (t'.leadsElsewhere out) = paths.filter (t'.leadsElsewhere out) := by
  obtain ⟨a, hfind⟩ := isDirectory_iff.1 hdirectory
  obtain ⟨links, hr⟩ := find_eq_ok_iff.1 hfind
  obtain ⟨e, hr', hkind⟩ := hw.grows.resolve hr
  cases hkind
  rw [walk, hr] at h
  rw [walk, hr']
  exact walkFrom_writesAt hw ht' ht (shows_of_resolve hr') (entry?_of_find hfind) h

end

end ChaiBind.FileTree
