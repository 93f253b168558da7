import ChaiBind.Proofs.FileTree.Resolution

/-!
# What edits do

Making directories puts directories where nothing is, and writing puts a file where nothing or a
file is. What has been made or written is then found under the path of the edit, so that the same
edit does nothing more.

* `addsDirectories_makeChain`, `isDirectory_of_makeChain`, `makeChain_of_isDirectory`: the
  directories of a path.
* `exists_of_write`, `write_of_found`: the file at a path.
-/

namespace ChaiBind

/-- Giving a key the value that it has changes nothing. -/
theorem Table.insert_of_get? {κ α : Type} [DecidableEq κ] {t : Table κ α} {k : κ} {v : α}
    (h : t.get? k = some v) : t.insert k v = t := by
  obtain ⟨es, hes⟩ := t
  apply ext_entries
  show alterEntries k (fun _ => v) es = es
  replace h : es.lookup k = some v := h
  clear hes
  induction es with
  | nil => cases h
  | cons e es ih =>
    rw [alterEntries]
    by_cases he : e.1 = k
    · subst he
      rw [List.lookup_cons_self] at h
      rw [if_pos rfl, ← Option.some.inj h]
    · rw [List.lookup_cons, beq_false_of_ne (Ne.symm he)] at h
      rw [if_neg he, ih h]

namespace Edit

variable {ε α β : Type}

/-- The result of a computation that may fail and change a tree, and the tree after it. -/
def on (m : ExceptT ε (StateM FileTree) α) (t : FileTree) : Except ε α × FileTree := m.run.run t

theorem on_get (t : FileTree) : on (get : Edit FileTree) t = (.ok t, t) := rfl

theorem on_liftM (x : Except FileError α) (t : FileTree) : on (liftM x : Edit α) t = (x, t) := by
  cases x <;> rfl

theorem on_adapt {ε' : Type} (f : ε → ε') (m : ExceptT ε (StateM FileTree) α) (t : FileTree) :
    on (ExceptT.adapt f m) t = ((on m t).1.mapError f, (on m t).2) := rfl

theorem on_bind (m : ExceptT ε (StateM FileTree) α) (f : α → ExceptT ε (StateM FileTree) β)
    (t : FileTree) :
    on (m >>= f) t =
      match on m t with
      | (.ok x, t') => on (f x) t'
      | (.error e, t') => (.error e, t') := by
  show (match on m t with
    | (r, t') => (ExceptT.bindCont f r : StateM FileTree (Except ε β)) t') = _
  rcases on m t with ⟨_ | _, t'⟩ <;> rfl

theorem on_bind_eq_ok_iff {m : ExceptT ε (StateM FileTree) α}
    {f : α → ExceptT ε (StateM FileTree) β} {t t' : FileTree} {y : β} :
    on (m >>= f) t = (.ok y, t') ↔ ∃ x t₁, on m t = (.ok x, t₁) ∧ on (f x) t₁ = (.ok y, t') := by
  rw [on_bind]
  rcases on m t with ⟨e | x, t₁⟩
  · simp
  · simp

theorem on_tryCatch (m : Edit α) (handle : FileError → Edit α) (t : FileTree) :
    on (tryCatch m handle) t =
      match on m t with
      | (.ok x, t') => (.ok x, t')
      | (.error e, t') => on (handle e) t' := by
  simp only [tryCatch, tryCatchThe, MonadExceptOf.tryCatch, ExceptT.tryCatch, on, ExceptT.run,
    ExceptT.mk, StateT.run, bind, StateT.bind]
  rcases m t with ⟨_ | _, t'⟩ <;> rfl

end Edit

namespace FileTree

variable {t t' t'' : FileTree} {path : String}

/-! ## Directories -/

/-- Everything stays as it is, and what comes is a directory. -/
structure AddsDirectories (t t' : FileTree) : Prop where
  workingDirectory : t'.workingDirectory = t.workingDirectory
  keeps : ∀ {a e}, t.entry? a = some e → t'.entry? a = some e
  adds : ∀ {a e}, t.entry? a = none → t'.entry? a = some e → e = .directory

namespace AddsDirectories

theorem refl (t : FileTree) : t.AddsDirectories t :=
  ⟨rfl, id, fun hnone hsome => by rw [hnone] at hsome; cases hsome⟩

theorem trans (h : t.AddsDirectories t') (h' : t'.AddsDirectories t'') : t.AddsDirectories t'' := by
  refine ⟨h'.workingDirectory.trans h.workingDirectory, fun he => h'.keeps (h.keeps he),
    fun {a e} hnone hsome => ?_⟩
  cases ha : t'.entry? a with
  | none => exact h'.adds ha hsome
  | some x =>
    rw [h'.keeps ha] at hsome
    rw [← Option.some.inj hsome]
    exact h.adds hnone ha

theorem put {a : Address} (h : t.Fits a .directory) : t.AddsDirectories (t.put a .directory) := by
  cases h with
  | @vacant a name _ hparent hvacant hname =>
    have hfits : t.Fits (a ++ [name]) .directory := .vacant hparent hvacant hname
    refine ⟨rfl, fun {b e} he => ?_, fun {b e} hnone hsome => ?_⟩
    · rw [hfits.entry?_put, if_neg, he]
      rintro rfl
      rw [hvacant] at he
      cases he
    · rw [hfits.entry?_put] at hsome
      split at hsome
      · exact (Option.some.inj hsome).symm
      · rw [hnone] at hsome
        cases hsome

end AddsDirectories

theorem on_place (path : String) (e : Entry) (t : FileTree) :
    Edit.on (place path e) t =
      match t.resolve .lookAtLink path with
      | .error err => (.error err, t)
      | .ok (.found .., _) => (.error .exists, t)
      | .ok (.vacant a name, _) => (.ok (), t.put (a ++ [name]) e) := by
  simp only [place, Edit.on_bind, Edit.on_get, Edit.on_liftM]
  cases t.resolve .lookAtLink path with
  | error err => rfl
  | ok r =>
    obtain ⟨g, left⟩ := r
    cases g <;> rfl

theorem on_orDirectory (path : String) (e : FileError) (t : FileTree) :
    Edit.on (orDirectory path e) t =
      if t.isDirectory path then (.ok (), t) else (.error e, t) := by
  simp only [orDirectory, Edit.on_bind, Edit.on_get]
  cases t.isDirectory path <;> rfl

/-- What making a directory does if it succeeds. -/
theorem exists_of_makeDirectory (h : Edit.on (makeDirectory path) t = (.ok (), t')) :
    ∃ a, t.Fits a .directory ∧ t' = t.put a .directory ∧
      (dropSlashes path = path → t'.isDirectory path) := by
  rw [makeDirectory, on_place] at h
  cases hr : t.resolve .lookAtLink (dropSlashes path) with
  | error err =>
    rw [hr] at h
    cases h
  | ok r =>
    obtain ⟨g, left⟩ := r
    rw [hr] at h
    cases g with
    | found => cases h
    | vacant a name =>
      cases h
      obtain ⟨husable, hway⟩ := resolve_eq_ok_iff.1 hr
      have hfits : t.Fits (a ++ [name]) .directory := hway.fits_of_vacant (named_stepsOf _) _
      refine ⟨_, hfits, rfl, fun hpath => ?_⟩
      rw [hpath] at husable hway
      have hlook := (hway.put hfits (.inl rfl)).look_of_lookAtLink nofun
      exact isDirectory_iff.2 ⟨_, find_of_way husable hlook⟩

theorem makeDirectory_keeps {r : Except FileError Unit}
    (h : Edit.on (makeDirectory path) t = (r, t')) (hr : r ≠ .ok ()) : t' = t := by
  rw [makeDirectory, on_place] at h
  split at h <;> cases h
  · rfl
  · rfl
  · exact absurd rfl hr

/-- What putting one directory does to a tree, making the directories of a path does, also if it
fails on the way. -/
theorem rel_makeChain {r : FileTree → FileTree → Prop} (hrefl : ∀ t, r t t)
    (htrans : ∀ {t t' t''}, r t t' → r t' t'' → r t t'')
    (hput : ∀ {t : FileTree} {a : Address}, t.Fits a .directory → r t (t.put a .directory))
    (paths : List String) (t : FileTree) : r t (Edit.on (makeChain paths) t).2 := by
  have hmade : ∀ path t, r t (Edit.on (makeDirectory path) t).2 := by
    intro path t
    rcases hmake : Edit.on (makeDirectory path) t with ⟨e | ⟨⟩, t'⟩
    · rw [makeDirectory_keeps hmake nofun]
      exact hrefl t
    · obtain ⟨a, hfits, rfl, -⟩ := exists_of_makeDirectory hmake
      exact hput hfits
  have hpassed : ∀ path e t, r t (Edit.on (orDirectory path e) t).2 := by
    intro path e t
    rw [on_orDirectory]
    split <;> exact hrefl t
  have htried : ∀ path (handle : FileError → Edit Unit),
      (∀ e t, r t (Edit.on (handle e) t).2) →
        ∀ t, r t (Edit.on (tryCatch (makeDirectory path) handle) t).2 := by
    intro path handle hhandle t
    have hfirst := hmade path t
    rw [Edit.on_tryCatch]
    rcases hmake : Edit.on (makeDirectory path) t with ⟨e | ⟨⟩, t'⟩ <;> rw [hmake] at hfirst
    · exact htrans hfirst (hhandle e t')
    · exact hfirst
  induction paths generalizing t with
  | nil => exact hrefl t
  | cons path above ih =>
    refine htried path _ (fun e t => ?_) t
    split
    · exact hpassed path e t
    -- the directories above come first, and then this one is tried again
    · have habove := ih t
      rw [Edit.on_bind]
      rcases hchain : Edit.on (makeChain above) t with ⟨e' | ⟨⟩, t'⟩ <;> rw [hchain] at habove
      · exact habove
      · exact htrans habove (htried path _ (hpassed path) t')

/-- Nothing but directories comes with those of a path. -/
theorem addsDirectories_makeChain (paths : List String) (t : FileTree) :
    t.AddsDirectories (Edit.on (makeChain paths) t).2 :=
  rel_makeChain .refl .trans .put paths t

theorem sound_makeChain (paths : List String) (ht : t.Sound) :
    (Edit.on (makeChain paths) t).2.Sound :=
  rel_makeChain (r := fun t t' => t.Sound → t'.Sound) (fun _ => id) (fun h h' ht => h' (h ht))
    Fits.sound paths t ht

/-- The first of some directories is there when all have been made. -/
theorem isDirectory_of_makeChain {above : List String} (hpath : dropSlashes path = path)
    (h : Edit.on (makeChain (path :: above)) t = (.ok (), t')) : t'.isDirectory path := by
  have hmade : ∀ {t t' : FileTree}, Edit.on (makeDirectory path) t = (.ok (), t') →
      t'.isDirectory path := by
    intro t t' h
    obtain ⟨a, -, -, hdirectory⟩ := exists_of_makeDirectory h
    exact hdirectory hpath
  have hpassed : ∀ {t t' : FileTree} {e : FileError},
      Edit.on (orDirectory path e) t = (.ok (), t') → t'.isDirectory path := by
    intro t t' e h
    rw [on_orDirectory] at h
    split at h
    · cases h
      assumption
    · cases h
  have htried : ∀ {t t' : FileTree} {handle : FileError → Edit Unit},
      (∀ {e t}, Edit.on (handle e) t = (.ok (), t') → t'.isDirectory path) →
        Edit.on (tryCatch (makeDirectory path) handle) t = (.ok (), t') → t'.isDirectory path := by
    intro t t' handle hhandle h
    rw [Edit.on_tryCatch] at h
    rcases hmake : Edit.on (makeDirectory path) t with ⟨e | ⟨⟩, t₁⟩
    · rw [hmake] at h
      exact hhandle h
    · rw [hmake] at h
      cases h
      exact hmade hmake
  refine htried (fun {e t} h => ?_) h
  split at h
  · exact hpassed h
  · obtain ⟨-, t₁, -, hagain⟩ := Edit.on_bind_eq_ok_iff.1 h
    exact htried hpassed hagain

theorem makeDirectory_of_isDirectory (h : t.isDirectory path) (hpath : dropSlashes path = path) :
    Edit.on (makeDirectory path) t = (.error .exists, t) := by
  obtain ⟨a, hfind⟩ := isDirectory_iff.1 h
  obtain ⟨left, hr⟩ := find_eq_ok_iff.1 hfind
  obtain ⟨husable, hway⟩ := resolve_eq_ok_iff.1 hr
  obtain ⟨b, e, left', hway'⟩ := hway.lookAtLink
  rw [makeDirectory, on_place, hpath, resolve_eq_ok_iff.2 ⟨husable, hway'⟩]

/-- A directory that is there is not made, nor are those above it. -/
theorem makeChain_of_isDirectory {above : List String} (h : t.isDirectory path)
    (hpath : dropSlashes path = path) : Edit.on (makeChain (path :: above)) t = (.ok (), t) := by
  rw [makeChain, Edit.on_tryCatch, makeDirectory_of_isDirectory h hpath]
  show Edit.on (if FileError.exists ≠ .notFound then orDirectory path .exists else _) t = _
  rw [if_pos nofun, on_orDirectory, if_pos h]

/-- A directory may come with those above it. -/
theorem makeChain_of_above {above : List String}
    (hmissing : Edit.on (makeDirectory path) t = (.error .notFound, t))
    (habove : Edit.on (makeChain above) t = (.ok (), t')) (h : t'.isDirectory path)
    (hpath : dropSlashes path = path) : Edit.on (makeChain (path :: above)) t = (.ok (), t') := by
  rw [makeChain, Edit.on_tryCatch, hmissing]
  show Edit.on (if FileError.notFound ≠ .notFound then _ else _) t = _
  rw [if_neg (not_not.2 rfl), Edit.on_bind, habove]
  dsimp only
  rw [Edit.on_tryCatch, makeDirectory_of_isDirectory h hpath]
  dsimp only
  rw [on_orDirectory, if_pos h]

/-! ## Files -/

theorem on_write (path : String) (content : ByteArray) (t : FileTree) :
    Edit.on (write path content) t =
      match t.resolve .create path with
      | .error err => (.error err, t)
      | .ok (.found _ .directory, _) => (.error .isDirectory, t)
      | .ok (.found a _, _) => (.ok (), t.put a (.file content))
      | .ok (.vacant a name, _) => (.ok (), t.put (a ++ [name]) (.file content)) := by
  simp only [write, Edit.on_bind, Edit.on_get, Edit.on_liftM]
  cases t.resolve .create path with
  | error err => rfl
  | ok r =>
    obtain ⟨g, left⟩ := r
    cases g with
    | found a e => cases e <;> rfl
    | vacant a name => rfl

/-- A path that is used to open a file leads to no link. -/
theorem ne_link_of_resolve {purpose : Purpose} (ht : t.Sound) {a : Address} {e : Entry} {left : Nat}
    (h : t.resolve purpose path = .ok (.found a e, left)) (hpurpose : purpose ≠ .lookAtLink)
    (target : String) : e ≠ .link target := by
  obtain ⟨husable, hway⟩ := resolve_eq_ok_iff.1 h
  refine hway.ne_link_of_found ht hpurpose (fun hsteps target hlink => ?_) target
  have hne : path.toList ≠ [] := fun heq => husable.nonempty (String.toList_inj.1 heq)
  rw [startOf, if_pos (head?_of_stepsOf_eq_nil hne hsteps)] at hlink
  cases hlink

/-- A file that has been written lies where nothing or a file was, and its path leads there. -/
theorem exists_of_write {content : ByteArray} (ht : t.Sound)
    (h : Edit.on (write path content) t = (.ok (), t')) :
    ∃ a left, t.Fits a (.file content) ∧ t' = t.put a (.file content) ∧
      t'.resolve .create path = .ok (.found a (.file content), left) := by
  rw [on_write] at h
  cases hr : t.resolve .create path with
  | error err =>
    rw [hr] at h
    cases h
  | ok r =>
    obtain ⟨g, left⟩ := r
    obtain ⟨husable, hway⟩ := resolve_eq_ok_iff.1 hr
    rw [hr] at h
    cases g with
    | found a e =>
      cases e with
      | directory => cases h
      | link target => exact absurd rfl (ne_link_of_resolve ht hr nofun target)
      | file earlier =>
        cases h
        have hfits : t.Fits a (.file content) := .file hway.entry?_of_found
        obtain ⟨e', hr', -⟩ := hfits.grows.resolve hr
        have hentry := (resolve_eq_ok_iff.1 hr').2.entry?_of_found
        rw [entry?_put_self hfits.ne_nil] at hentry
        cases hentry
        exact ⟨a, left, hfits, rfl, hr'⟩
    | vacant a name =>
      cases h
      have hfits : t.Fits (a ++ [name]) (.file content) := hway.fits_of_vacant (named_stepsOf _) _
      exact ⟨_, left, hfits, rfl,
        resolve_eq_ok_iff.2 ⟨husable, hway.put hfits (.inr ⟨rfl, content, rfl⟩)⟩⟩

theorem put_eq_self {a : Address} {e : Entry} (ha : a ≠ []) (h : t.entry? a = some e) :
    t.put a e = t := by
  rw [entry?_of_ne_nil ha] at h
  rw [put, Table.insert_of_get? h]

/-- Writing what is there already changes nothing. -/
theorem write_of_found {content : ByteArray} {a : Address} {left : Nat} (ha : a ≠ [])
    (h : t.resolve .create path = .ok (.found a (.file content), left)) :
    Edit.on (write path content) t = (.ok (), t) := by
  rw [on_write, h]
  show (Except.ok (), t.put a (.file content)) = _
  rw [put_eq_self ha (resolve_eq_ok_iff.1 h).2.entry?_of_found]

/-! ## A file in directories that may be new -/

/-- A file has been written at an address, and beside it nothing but directories has come. -/
structure WritesAt (t t' : FileTree) (out : Address) (content : ByteArray) : Prop where
  workingDirectory : t'.workingDirectory = t.workingDirectory
  keeps : ∀ {a e}, a ≠ out → t.entry? a = some e → t'.entry? a = some e
  adds : ∀ {a e}, a ≠ out → t.entry? a = none → t'.entry? a = some e → e = .directory
  replaces : ∀ {e}, t.entry? out = some e → ∃ earlier, e = .file earlier
  written : t'.entry? out = some (.file content)

theorem AddsDirectories.writesAt (h : t.AddsDirectories t') {out : Address} {content : ByteArray}
    (hfits : t'.Fits out (.file content)) : t.WritesAt (t'.put out (.file content)) out content := by
  refine ⟨h.workingDirectory, fun {a e} hne he => ?_, fun {a e} hne hnone hsome => ?_,
    fun {e} he => ?_, entry?_put_self hfits.ne_nil _⟩
  · rw [hfits.entry?_put, if_neg hne]
    exact h.keeps he
  · rw [hfits.entry?_put, if_neg hne] at hsome
    exact h.adds hnone hsome
  · have he' := h.keeps he
    cases hfits with
    | vacant _ hvacant =>
      rw [hvacant] at he'
      cases he'
    | file hfile =>
      rw [hfile] at he'
      exact ⟨_, (Option.some.inj he').symm⟩

theorem WritesAt.grows {out : Address} {content : ByteArray} (h : t.WritesAt t' out content) :
    t.Grows t' := by
  refine ⟨h.workingDirectory, fun {a e} he => ?_⟩
  by_cases ha : a = out
  · subst ha
    obtain ⟨earlier, rfl⟩ := h.replaces he
    exact ⟨_, h.written, .file _ _⟩
  · exact ⟨e, h.keeps ha he, .refl e⟩

end FileTree

end ChaiBind
