import ChaiBind.FileTree.Walk
import ChaiBind.Proofs.FileTree.Steps

/-!
# Ways through a tree

`Way` relates the steps of a path to the goal that they lead to, one rule for each thing that a
step can do, and resolution finds exactly these ways (`way_iff`). What is known of the steps of
all paths follows rule by rule:

* `Way.grows`: a way to something that is there stays when a tree grows.
* `Way.put`: a way to a vacant place leads to what is put there.
* `Way.append`, `Way.exists_mid`, `Way.of_settle`: ways one after the other, slashes at the
  end.
* `Way.look`, `Way.lookAtLink`, `Way.create`: what the purpose of a path changes.

So a path leads where there is a way for its steps (`find_of_way`), and nowhere if the first name on it
is missing (`find_of_missing`).
-/

namespace ChaiBind.FileTree

variable {t t' : FileTree}

/-- A name is looked up in a directory, with some steps behind it. -/
structure Enters (t : FileTree) (purpose : Purpose) (a : Address) (name : String)
    (steps : List Step) : Prop where
  directory : t.entry? a = some .directory
  short : name.utf8ByteSize ≤ maxNameBytes
  opens : ¬ (purpose = .create ∧ steps = [.settle])

/-- What a path is for and the steps behind a name matter only for an entry to be made. -/
theorem Enters.of_ne_create {purpose purpose' : Purpose} {a : Address} {name : String}
    {steps steps' : List Step} (h : t.Enters purpose a name steps) (hne : purpose' ≠ .create) :
    t.Enters purpose' a name steps' :=
  ⟨h.directory, h.short, fun hmakes => hne hmakes.1⟩

theorem Grows.enters (hg : t.Grows t') {purpose : Purpose} {a : Address} {name : String}
    {steps : List Step} (h : t.Enters purpose a name steps) : t'.Enters purpose a name steps :=
  ⟨hg.directory h.directory, h.short, h.opens⟩

/-- Steps lead from an address to a goal, and some links may still be followed then. -/
inductive Way (t : FileTree) (purpose : Purpose) :
    Nat → Address → List Step → Goal → Nat → Prop
  | arrived {links a e} (entry : t.entry? a = some e) : Way t purpose links a [] (.found a e) links
  | stay {links a step steps g left} (directory : t.entry? a = some .directory)
      (step_eq : step = .here ∨ step = .settle) (way : Way t purpose links a steps g left) :
      Way t purpose links a (step :: steps) g left
  | up {links a steps g left} (directory : t.entry? a = some .directory)
      (way : Way t purpose links a.dropLast steps g left) :
      Way t purpose links a (.up :: steps) g left
  | vacant {links a name steps} (enters : t.Enters purpose a name steps)
      (vacant : t.entry? (a ++ [name]) = none) (last : isLast steps) :
      Way t purpose links a (.down name :: steps) (.vacant a name) links
  | link {links a name target} (enters : t.Enters purpose a name [])
      (entry : t.entry? (a ++ [name]) = some (.link target)) (looks : purpose = .lookAtLink) :
      Way t purpose links a [.down name] (.found (a ++ [name]) (.link target)) links
  | follow {links a name steps target g left} (enters : t.Enters purpose a name steps)
      (entry : t.entry? (a ++ [name]) = some (.link target))
      (passes : ¬ (purpose = .lookAtLink ∧ steps = []))
      (way : Way t purpose links (startOf target.toList a) (stepsOf target.toList ++ steps) g left) :
      Way t purpose (links + 1) a (.down name :: steps) g left
  | down {links a name steps e g left} (enters : t.Enters purpose a name steps)
      (entry : t.entry? (a ++ [name]) = some e) (noLink : ∀ target, e ≠ .link target)
      (way : Way t purpose links (a ++ [name]) steps g left) :
      Way t purpose links a (.down name :: steps) g left

theorem way_of_resolveFrom {purpose : Purpose} {links left : Nat} {a : Address}
    {steps : List Step} {g : Goal} (h : t.resolveFrom purpose links a steps = .ok (g, left)) :
    t.Way purpose links a steps g left := by
  fun_induction resolveFrom t purpose links a steps
  case case1 hentry =>
    cases h
    exact .arrived hentry
  case case6 hdirectory ih => exact .stay hdirectory (.inl rfl) (ih h)
  case case7 hdirectory ih => exact .stay hdirectory (.inr rfl) (ih h)
  case case8 hdirectory ih => exact .up hdirectory (ih h)
  case case11 hdirectory name hshort hopens hvacant hlast =>
    cases h
    exact .vacant ⟨hdirectory, Nat.le_of_not_lt hshort, by simpa using hopens⟩ hvacant hlast
  case case13 hdirectory name hshort hopens target hentry hlooks =>
    cases h
    simp only [Bool.and_eq_true, decide_eq_true_eq] at hlooks
    obtain ⟨hlooks, rfl⟩ := hlooks
    exact .link ⟨hdirectory, Nat.le_of_not_lt hshort, by simp⟩ hentry hlooks
  case case15 hdirectory name hshort hopens target hentry hpasses links ih =>
    exact .follow ⟨hdirectory, Nat.le_of_not_lt hshort, by simpa using hopens⟩ hentry
      (by simpa using hpasses) (ih h)
  case case16 hdirectory name hshort hopens e hne hentry ih =>
    exact .down ⟨hdirectory, Nat.le_of_not_lt hshort, by simpa using hopens⟩ hentry hne (ih h)
  all_goals cases h

/-- A step down into a directory, apart from what makes it fail at once. -/
theorem Enters.resolveFrom_eq {purpose : Purpose} {a : Address} {name : String}
    {steps : List Step} (h : t.Enters purpose a name steps) (links : Nat) :
    t.resolveFrom purpose links a (.down name :: steps) =
      match t.entry? (a ++ [name]) with
      | none => if isLast steps then .ok (.vacant a name, links) else .error .notFound
      | some (.link target) =>
        if purpose = .lookAtLink && steps = [] then .ok (.found (a ++ [name]) (.link target), links)
        else
          match links with
          | 0 => .error .tooManyLinks
          | links + 1 =>
            t.resolveFrom purpose links (startOf target.toList a) (stepsOf target.toList ++ steps)
      | some _ => t.resolveFrom purpose links (a ++ [name]) steps := by
  have hopens : ¬ (purpose = .create && steps = [.settle]) = true := by
    simpa using h.opens
  rw [resolveFrom]
  generalize t.entry? (a ++ [name]) = entry
  rcases entry with _ | _ | _ | _
  case some.link target =>
    cases links <;> simp only [h.directory, if_neg (Nat.not_lt.2 h.short), if_neg hopens]
  all_goals simp only [h.directory, if_neg (Nat.not_lt.2 h.short), if_neg hopens]

theorem resolveFrom_of_way {purpose : Purpose} {links left : Nat} {a : Address}
    {steps : List Step} {g : Goal} (h : t.Way purpose links a steps g left) :
    t.resolveFrom purpose links a steps = .ok (g, left) := by
  induction h with
  | arrived hentry => simp only [resolveFrom, hentry]
  | stay hdirectory hstep _ ih =>
    rcases hstep with rfl | rfl <;> simp only [resolveFrom, hdirectory, ih]
  | up hdirectory _ ih => simp only [resolveFrom, hdirectory, ih]
  | vacant henters hvacant hlast =>
    rw [henters.resolveFrom_eq, hvacant]
    exact if_pos hlast
  | link henters hentry hlooks =>
    rw [henters.resolveFrom_eq, hentry]
    exact if_pos (by simp [hlooks])
  | follow henters hentry hpasses _ ih =>
    rw [henters.resolveFrom_eq, hentry, ← ih]
    exact if_neg (by simpa using hpasses)
  | @down _ _ _ _ e _ _ henters hentry hne _ ih =>
    rw [henters.resolveFrom_eq, hentry, ← ih]
    cases e with
    | link target => exact absurd rfl (hne target)
    | directory | file => rfl

/-- What resolution finds are the ways. -/
theorem way_iff {purpose : Purpose} {links left : Nat} {a : Address} {steps : List Step}
    {g : Goal} : t.resolveFrom purpose links a steps = .ok (g, left) ↔
      t.Way purpose links a steps g left :=
  ⟨way_of_resolveFrom, resolveFrom_of_way⟩

namespace Way

variable {purpose : Purpose} {links left : Nat} {a b : Address} {name : String} {e : Entry}
  {steps more : List Step} {g : Goal}

/-! ## Ways down -/

theorem enter (ha : t.entry? a = some .directory) (hshort : name.utf8ByteSize ≤ maxNameBytes)
    (he : t.entry? (a ++ [name]) = some .directory)
    (h : t.Way .look links (a ++ [name]) steps g left) :
    t.Way .look links a (.down name :: steps) g left :=
  .down ⟨ha, hshort, nofun⟩ he nofun h

theorem reach {content : ByteArray} (ha : t.entry? a = some .directory)
    (hshort : name.utf8ByteSize ≤ maxNameBytes)
    (he : t.entry? (a ++ [name]) = some (.file content)) :
    t.Way .look links a [.down name] (.found (a ++ [name]) (.file content)) links :=
  .down ⟨ha, hshort, nofun⟩ he nofun (.arrived he)

/-! ## Where ways end -/

theorem entry?_of_found (h : t.Way purpose links a steps (.found b e) left) :
    t.entry? b = some e := by
  generalize hg : Goal.found b e = g at h
  induction h with
  | arrived hentry =>
    cases hg
    exact hentry
  | link _ hentry _ =>
    cases hg
    exact hentry
  | vacant => cases hg
  | stay _ _ _ ih | up _ _ ih | follow _ _ _ _ ih | down _ _ _ _ ih => exact ih hg

/-- Only to look at a link does a path lead to one. -/
theorem ne_link_of_found (ht : t.Sound) (hpurpose : purpose ≠ .lookAtLink)
    (h : t.Way purpose links a steps (.found b e) left)
    (ha : steps = [] → ∀ target, t.entry? a ≠ some (.link target)) (target : String) :
    e ≠ .link target := by
  have hdirectory : ∀ {a : Address}, t.entry? a = some .directory →
      ∀ target, t.entry? a ≠ some (.link target) := fun hdirectory target hlink => by
    rw [hdirectory] at hlink
    cases hlink
  generalize hg : Goal.found b e = g at h
  induction h with
  | arrived hentry =>
    cases hg
    exact fun he => ha rfl target (he ▸ hentry)
  | link _ _ hlooks => exact absurd hlooks hpurpose
  | vacant => cases hg
  | stay hstay _ _ ih => exact ih (fun _ => hdirectory hstay) hg
  | up hup _ ih => exact ih (fun _ => hdirectory (ht.dropLast hup)) hg
  | @follow _ a _ _ target _ _ henters _ _ _ ih =>
    refine ih (fun _ => ?_) hg
    unfold startOf
    split
    · exact hdirectory rfl
    · exact hdirectory henters.directory
  | down _ hentry hne _ ih =>
    exact ih (fun _ target hlink => hne target (Option.some.inj (hentry.symm.trans hlink))) hg

/-- Something can be put in a vacant place. -/
theorem fits_of_vacant (h : t.Way purpose links a steps (.vacant b name) left)
    (hsteps : Named steps) (e : Entry) : t.Fits (b ++ [name]) e := by
  generalize hg : Goal.vacant b name = g at h
  induction h with
  | arrived | link => cases hg
  | vacant henters hvacant _ =>
    cases hg
    exact .vacant henters.directory hvacant (hsteps _ List.mem_cons_self henters.short)
  | stay _ _ _ ih | up _ _ ih | down _ _ _ _ ih =>
    exact ih (fun n hn => hsteps n (List.mem_cons_of_mem _ hn)) hg
  | follow _ _ _ _ ih =>
    refine ih (fun n hn => ?_) hg
    rcases List.mem_append.1 hn with hn | hn
    · exact named_stepsOf _ n hn
    · exact hsteps n (List.mem_cons_of_mem _ hn)

/-! ## Ways in a tree that grows -/

/-- What a path leads to is still there, at the same address, when the tree has grown. -/
theorem grows (hgrows : t.Grows t') (h : t.Way purpose links a steps (.found b e) left) :
    ∃ e', t'.Way purpose links a steps (.found b e') left ∧ SameKind e e' := by
  generalize hg : Goal.found b e = g at h
  induction h with
  | arrived hentry =>
    cases hg
    obtain ⟨e', he', hkind⟩ := hgrows.keeps hentry
    exact ⟨e', .arrived he', hkind⟩
  | vacant => cases hg
  | link henters hentry hlooks =>
    cases hg
    exact ⟨_, .link (hgrows.enters henters) (hgrows.link hentry) hlooks, .link _⟩
  | stay hdirectory hstep _ ih =>
    obtain ⟨e', hway, hkind⟩ := ih hg
    exact ⟨e', .stay (hgrows.directory hdirectory) hstep hway, hkind⟩
  | up hdirectory _ ih =>
    obtain ⟨e', hway, hkind⟩ := ih hg
    exact ⟨e', .up (hgrows.directory hdirectory) hway, hkind⟩
  | follow henters hentry hpasses _ ih =>
    obtain ⟨e', hway, hkind⟩ := ih hg
    exact ⟨e', .follow (hgrows.enters henters) (hgrows.link hentry) hpasses hway, hkind⟩
  | down henters hentry hne _ ih =>
    obtain ⟨e', hway, hkind⟩ := ih hg
    obtain ⟨x, hx, hxkind⟩ := hgrows.keeps hentry
    refine ⟨e', .down (hgrows.enters henters) hx (fun target he => ?_) hway, hkind⟩
    subst he
    cases hxkind
    exact hne target rfl

/-- A path to a vacant place leads to a directory that is put there, or to a file if it was resolved
to make one. -/
theorem put (h : t.Way purpose links a steps (.vacant b name) left)
    (hfits : t.Fits (b ++ [name]) e)
    (he : e = .directory ∨ purpose = .create ∧ ∃ content, e = .file content) :
    (t.put (b ++ [name]) e).Way purpose links a steps (.found (b ++ [name]) e) left := by
  have hgrows := hfits.grows
  have hentry : entry? (t.put (b ++ [name]) e) (b ++ [name]) = some e := entry?_put_self (by simp) e
  have hne : ∀ target, e ≠ .link target := by
    rcases he with rfl | ⟨-, content, rfl⟩ <;> exact nofun
  generalize hg : Goal.vacant b name = g at h
  induction h with
  | arrived | link => cases hg
  | @vacant links a name steps henters _ hlast =>
    cases hg
    refine .down (hgrows.enters henters) hentry hne ?_
    simp only [isLast, Bool.or_eq_true, decide_eq_true_eq] at hlast
    rcases hlast with rfl | rfl
    · exact .arrived hentry
    · rcases he with rfl | ⟨hcreate, -⟩
      · exact .stay hentry (.inr rfl) (.arrived hentry)
      · exact absurd ⟨hcreate, rfl⟩ henters.opens
  | stay hdirectory hstep _ ih => exact .stay (hgrows.directory hdirectory) hstep (ih hg)
  | up hdirectory _ ih => exact .up (hgrows.directory hdirectory) (ih hg)
  | follow henters hlink hpasses _ ih =>
    exact .follow (hgrows.enters henters) (hgrows.link hlink) hpasses (ih hg)
  | down henters hx hxne _ ih =>
    obtain ⟨x, hx', hkind⟩ := hgrows.keeps hx
    refine .down (hgrows.enters henters) hx' (fun target he => ?_) (ih hg)
    subst he
    cases hkind
    exact hxne target rfl

/-! ## Purposes -/

/-- A way to no link follows whatever links it meets, whatever it is for. -/
theorem look_of_ne_link {purpose : Purpose} (h : t.Way purpose links a steps g left)
    (hg : purpose = .lookAtLink → ∀ b target, g ≠ .found b (.link target)) :
    t.Way .look links a steps g left := by
  induction h with
  | arrived hentry => exact .arrived hentry
  | stay hdirectory hstep _ ih => exact .stay hdirectory hstep (ih hg)
  | up hdirectory _ ih => exact .up hdirectory (ih hg)
  | vacant hin hvacant hlast => exact .vacant (hin.of_ne_create nofun) hvacant hlast
  | link _ _ hlooks => exact absurd rfl (hg hlooks _ _)
  | follow hin hentry _ _ ih => exact .follow (hin.of_ne_create nofun) hentry nofun (ih hg)
  | down hin hentry hne _ ih => exact .down (hin.of_ne_create nofun) hentry hne (ih hg)

theorem look (h : t.Way .create links a steps g left) : t.Way .look links a steps g left :=
  h.look_of_ne_link nofun

/-- A path that is looked at, if it leads to no link, is followed. -/
theorem look_of_lookAtLink (h : t.Way .lookAtLink links a steps (.found b e) left)
    (he : ∀ target, e ≠ .link target) : t.Way .look links a steps (.found b e) left := by
  refine h.look_of_ne_link fun _ b target hlink => ?_
  cases hlink
  exact he target rfl

/-- What can be followed can be looked at. -/
theorem lookAtLink (h : t.Way .look links a steps (.found b e) left) :
    ∃ b e left, t.Way .lookAtLink links a steps (.found b e) left := by
  generalize hg : Goal.found b e = g at h
  induction h with
  | arrived hentry => exact ⟨_, _, _, .arrived hentry⟩
  | stay hdirectory hstep _ ih =>
    obtain ⟨b, e, left, hway⟩ := ih hg
    exact ⟨b, e, left, .stay hdirectory hstep hway⟩
  | up hdirectory _ ih =>
    obtain ⟨b, e, left, hway⟩ := ih hg
    exact ⟨b, e, left, .up hdirectory hway⟩
  | vacant => cases hg
  | link _ _ hlooks => cases hlooks
  | @follow _ _ _ steps _ _ _ hin hentry _ _ ih =>
    by_cases hsteps : steps = []
    · subst hsteps
      exact ⟨_, _, _, .link (hin.of_ne_create nofun) hentry rfl⟩
    · obtain ⟨b, e, left, hway⟩ := ih hg
      exact ⟨b, e, left, .follow (hin.of_ne_create nofun) hentry (fun h => hsteps h.2) hway⟩
  | down hin hentry hne _ ih =>
    obtain ⟨b, e, left, hway⟩ := ih hg
    exact ⟨b, e, left, .down (hin.of_ne_create nofun) hentry hne hway⟩

/-! ## Ways one after the other -/

theorem append {mid : Nat} (h : t.Way .look links a steps (.found b e) mid)
    (hmore : t.Way .look mid b more g left) : t.Way .look links a (steps ++ more) g left := by
  generalize hg : Goal.found b e = g' at h
  induction h with
  | arrived =>
    cases hg
    exact hmore
  | stay hdirectory hstep _ ih => exact .stay hdirectory hstep (ih hmore hg)
  | up hdirectory _ ih => exact .up hdirectory (ih hmore hg)
  | vacant => cases hg
  | link _ _ hlooks => cases hlooks
  | follow hin hentry _ _ ih =>
    have hway := ih hmore hg
    rw [List.append_assoc] at hway
    exact .follow (hin.of_ne_create nofun) hentry nofun hway
  | down hin hentry hne _ ih => exact .down (hin.of_ne_create nofun) hentry hne (ih hmore hg)

/-- Steps that are taken lead from a directory. -/
theorem directory_of_ne_nil {purpose : Purpose} (h : t.Way purpose links a steps g left)
    (hne : steps ≠ []) : t.entry? a = some .directory := by
  cases h with
  | arrived => exact absurd rfl hne
  | stay hdirectory | up hdirectory => exact hdirectory
  | vacant hin | link hin | follow hin | down hin => exact hin.directory

/-- A way over two lists of steps is one over the first, and one over the second from there. -/
theorem exists_mid (h : t.Way .look links a (steps ++ more) (.found b e) left) :
    ∃ d x mid, t.Way .look links a steps (.found d x) mid ∧
      t.Way .look mid d more (.found b e) left := by
  generalize hg : Goal.found b e = g at h ⊢
  generalize hsteps : steps ++ more = s at h
  induction h generalizing steps with
  | arrived hentry =>
    obtain ⟨rfl, rfl⟩ := List.append_eq_nil_iff.1 hsteps
    exact ⟨_, _, _, .arrived hentry, .arrived hentry⟩
  | vacant => cases hg
  | link _ _ hlooks => cases hlooks
  | stay hdirectory hstep hway ih =>
    cases steps with
    | nil =>
      obtain rfl : more = _ := hsteps
      exact ⟨_, _, _, .arrived hdirectory, .stay hdirectory hstep hway⟩
    | cons x xs =>
      obtain ⟨rfl, rfl⟩ := List.cons.inj hsteps
      obtain ⟨d, x, mid, hfirst, hrest⟩ := ih hg rfl
      exact ⟨d, x, mid, .stay hdirectory hstep hfirst, hrest⟩
  | up hdirectory hway ih =>
    cases steps with
    | nil =>
      obtain rfl : more = _ := hsteps
      exact ⟨_, _, _, .arrived hdirectory, .up hdirectory hway⟩
    | cons x xs =>
      obtain ⟨rfl, rfl⟩ := List.cons.inj hsteps
      obtain ⟨d, x, mid, hfirst, hrest⟩ := ih hg rfl
      exact ⟨d, x, mid, .up hdirectory hfirst, hrest⟩
  | follow hin hentry hpasses hway ih =>
    cases steps with
    | nil =>
      obtain rfl : more = _ := hsteps
      exact ⟨_, _, _, .arrived hin.directory, .follow hin hentry hpasses hway⟩
    | cons x xs =>
      obtain ⟨rfl, rfl⟩ := List.cons.inj hsteps
      obtain ⟨d, x, mid, hfirst, hrest⟩ := ih hg (List.append_assoc ..)
      exact ⟨d, x, mid, .follow (hin.of_ne_create nofun) hentry nofun hfirst, hrest⟩
  | down hin hentry hne hway ih =>
    cases steps with
    | nil =>
      obtain rfl : more = _ := hsteps
      exact ⟨_, _, _, .arrived hin.directory, .down hin hentry hne hway⟩
    | cons x xs =>
      obtain ⟨rfl, rfl⟩ := List.cons.inj hsteps
      obtain ⟨d, x, mid, hfirst, hrest⟩ := ih hg rfl
      exact ⟨d, x, mid, .down (hin.of_ne_create nofun) hentry hne hfirst, hrest⟩

/-- A way to something that is there goes through directories. -/
theorem exists_of_append (h : t.Way .look links a (steps ++ more) (.found b e) left)
    (hmore : more ≠ []) : ∃ d mid, t.Way .look links a steps (.found d .directory) mid ∧
      t.Way .look mid d more (.found b e) left := by
  obtain ⟨d, x, mid, hfirst, hrest⟩ := h.exists_mid
  have hx := hfirst.entry?_of_found
  rw [hrest.directory_of_ne_nil hmore] at hx
  cases hx
  exact ⟨d, mid, hfirst, hrest⟩

/-- A slash at the end of a path asks for a directory, and does nothing else. -/
theorem of_settle (h : t.Way .look links a (steps ++ [.settle]) (.found b e) left) :
    t.Way .look links a steps (.found b e) left ∧ e = .directory := by
  obtain ⟨d, mid, hfirst, hrest⟩ := h.exists_of_append (List.cons_ne_nil _ _)
  cases hrest with
  | stay hdirectory _ hway =>
    cases hway with
    | arrived hentry =>
      cases hentry.symm.trans hdirectory
      exact ⟨hfirst, rfl⟩

/-- A path to a file ends in no slash, so that the file can be opened. -/
theorem create {content : ByteArray}
    (h : t.Way .look links a steps (.found b (.file content)) left) :
    t.Way .create links a steps (.found b (.file content)) left := by
  generalize hg : Goal.found b (.file content) = g at h
  induction h with
  | arrived hentry => exact .arrived hentry
  | stay hdirectory hstep _ ih => exact .stay hdirectory hstep (ih hg)
  | up hdirectory _ ih => exact .up hdirectory (ih hg)
  | vacant => cases hg
  | link _ _ hlooks => cases hlooks
  | follow hin hentry _ hway ih =>
    subst hg
    refine .follow ⟨hin.directory, hin.short, fun hopens => ?_⟩ hentry nofun (ih rfl)
    rw [hopens.2] at hway
    cases hway.of_settle.2
  | down hin hentry hne hway ih =>
    subst hg
    refine .down ⟨hin.directory, hin.short, fun hopens => ?_⟩ hentry hne (ih rfl)
    rw [hopens.2, ← List.nil_append [Step.settle]] at hway
    cases hway.of_settle.2

end Way

/-! ## Paths -/

/-- A path that can lead somewhere, whatever tree it is used in. -/
structure Usable (path : String) : Prop where
  nonempty : path ≠ ""
  noNull : '\x00' ∉ path.toList
  short : path.utf8ByteSize ≤ maxPathBytes

instance (path : String) : Decidable (Usable path) :=
  decidable_of_iff (path ≠ "" ∧ '\x00' ∉ path.toList ∧ path.utf8ByteSize ≤ maxPathBytes)
    ⟨fun ⟨h₁, h₂, h₃⟩ => ⟨h₁, h₂, h₃⟩, fun ⟨h₁, h₂, h₃⟩ => ⟨h₁, h₂, h₃⟩⟩

variable {path : String} {purpose : Purpose} {a : Address} {e : Entry} {left : Nat}

theorem resolve_of_usable (h : Usable path) : t.resolve purpose path =
    t.resolveFrom purpose maxLinks (startOf path.toList t.workingDirectory)
      (stepsOf path.toList) := by
  rw [resolve, if_neg (by simpa using h.nonempty), if_neg (by simpa using h.noNull),
    if_neg (Nat.not_lt.2 h.short)]

/-- Resolution ends at the first name of a path if that is missing. -/
theorem resolve_of_missing {name : String} {steps : List Step} (h : Usable path)
    (hsteps : stepsOf path.toList = .down name :: steps)
    (henters : t.Enters purpose (startOf path.toList t.workingDirectory) name steps)
    (hnone : t.entry? (startOf path.toList t.workingDirectory ++ [name]) = none) :
    t.resolve purpose path =
      if isLast steps then .ok (.vacant (startOf path.toList t.workingDirectory) name, maxLinks)
      else .error .notFound := by
  rw [resolve_of_usable h, hsteps, henters.resolveFrom_eq, hnone]

theorem usable_of_resolve {r : Goal × Nat} (h : t.resolve purpose path = .ok r) : Usable path := by
  unfold resolve at h
  split at h
  · cases h
  · rename_i hempty
    split at h
    · cases h
    · rename_i hnull
      split at h
      · cases h
      · rename_i hlong
        exact ⟨by simpa using hempty, by simpa using hnull, Nat.le_of_not_lt hlong⟩

theorem resolve_eq_ok_iff {g : Goal} : t.resolve purpose path = .ok (g, left) ↔ Usable path ∧
    t.Way purpose maxLinks (startOf path.toList t.workingDirectory) (stepsOf path.toList) g left := by
  constructor
  · intro h
    have husable := usable_of_resolve h
    rw [resolve_of_usable husable, way_iff] at h
    exact ⟨husable, h⟩
  · rintro ⟨husable, hway⟩
    rw [resolve_of_usable husable, way_iff]
    exact hway

theorem find_eq_ok_iff :
    t.find path = .ok (a, e) ↔ ∃ left, t.resolve .look path = .ok (.found a e, left) := by
  rw [find]
  cases hr : t.resolve .look path with
  | error err => simp [bind, Except.bind]
  | ok r =>
    obtain ⟨g, left⟩ := r
    cases g <;> simp [bind, Except.bind, pure, Except.pure, throw, throwThe, MonadExceptOf.throw]

theorem find_of_way (h : Usable path)
    (hway : t.Way .look maxLinks (startOf path.toList t.workingDirectory) (stepsOf path.toList)
      (.found a e) left) : t.find path = .ok (a, e) :=
  find_eq_ok_iff.2 ⟨left, resolve_eq_ok_iff.2 ⟨h, hway⟩⟩

/-- A path leads nowhere if the first name on it is missing. -/
theorem find_of_missing {name : String} {steps : List Step} (h : Usable path)
    (hsteps : stepsOf path.toList = .down name :: steps)
    (hstart : t.entry? (startOf path.toList t.workingDirectory) = some .directory)
    (hshort : name.utf8ByteSize ≤ maxNameBytes)
    (hnone : t.entry? (startOf path.toList t.workingDirectory ++ [name]) = none) :
    t.find path = .error .notFound := by
  have henters : t.Enters .look (startOf path.toList t.workingDirectory) name steps :=
    ⟨hstart, hshort, nofun⟩
  rw [find, resolve_of_missing h hsteps henters hnone]
  split <;> rfl

theorem entry?_of_find (h : t.find path = .ok (a, e)) : t.entry? a = some e := by
  obtain ⟨left, hr⟩ := find_eq_ok_iff.1 h
  exact (resolve_eq_ok_iff.1 hr).2.entry?_of_found

theorem leads_iff : t.leads path ↔ ∃ a e, t.find path = .ok (a, e) := by
  rw [leads]
  cases t.find path with
  | error err => simp [Except.toBool]
  | ok r => exact ⟨fun _ => ⟨r.1, r.2, rfl⟩, fun _ => rfl⟩

theorem canonical?_eq_some_iff : t.canonical? path = some a ↔ ∃ e, t.find path = .ok (a, e) := by
  rw [canonical?]
  cases t.find path <;> simp [Except.toOption, Prod.ext_iff]

theorem canonical?_of_find_eq_error {err : FileError} (h : t.find path = .error err) :
    t.canonical? path = none := by
  rw [canonical?, h]
  rfl

theorem isDirectory_iff : t.isDirectory path ↔ ∃ a, t.find path = .ok (a, .directory) := by
  rw [isDirectory]
  cases t.find path with
  | error err => simp
  | ok r =>
    obtain ⟨a, e⟩ := r
    cases e <;> simp

theorem isFile_iff : t.isFile path ↔ ∃ a content, t.find path = .ok (a, .file content) := by
  rw [isFile]
  cases t.find path with
  | error err => simp
  | ok r =>
    obtain ⟨a, e⟩ := r
    cases e <;> simp

theorem read_eq_ok_iff {content : ByteArray} :
    t.read path = .ok content ↔ ∃ a, t.find path = .ok (a, .file content) := by
  rw [read]
  cases t.find path with
  | error err => simp [bind, Except.bind]
  | ok r =>
    obtain ⟨a, e⟩ := r
    cases e <;> simp [bind, Except.bind, pure, Except.pure, throw, throwThe, MonadExceptOf.throw]

theorem leads_of_read {content : ByteArray} (h : t.read path = .ok content) : t.leads path := by
  obtain ⟨a, hfind⟩ := read_eq_ok_iff.1 h
  exact leads_iff.2 ⟨a, _, hfind⟩

theorem exists_canonical?_of_leads (h : t.leads path) : ∃ a, t.canonical? path = some a := by
  obtain ⟨a, e, hfind⟩ := leads_iff.1 h
  exact ⟨a, canonical?_eq_some_iff.2 ⟨e, hfind⟩⟩

namespace Grows

variable (h : t.Grows t')
include h

theorem resolve (hr : t.resolve purpose path = .ok (.found a e, left)) :
    ∃ e', t'.resolve purpose path = .ok (.found a e', left) ∧ SameKind e e' := by
  obtain ⟨husable, hway⟩ := resolve_eq_ok_iff.1 hr
  obtain ⟨e', hway', hkind⟩ := hway.grows h
  rw [← h.workingDirectory] at hway'
  exact ⟨e', resolve_eq_ok_iff.2 ⟨husable, hway'⟩, hkind⟩

theorem find (hf : t.find path = .ok (a, e)) : ∃ e', t'.find path = .ok (a, e') ∧ SameKind e e' := by
  obtain ⟨left, hr⟩ := find_eq_ok_iff.1 hf
  obtain ⟨e', hr', hkind⟩ := h.resolve hr
  exact ⟨e', find_eq_ok_iff.2 ⟨left, hr'⟩, hkind⟩

theorem leads (hl : t.leads path) : t'.leads path := by
  obtain ⟨a, e, hf⟩ := leads_iff.1 hl
  obtain ⟨e', hf', -⟩ := h.find hf
  exact leads_iff.2 ⟨a, e', hf'⟩

theorem canonical? (hc : t.canonical? path = some a) : t'.canonical? path = some a := by
  obtain ⟨e, hf⟩ := canonical?_eq_some_iff.1 hc
  obtain ⟨e', hf', -⟩ := h.find hf
  exact canonical?_eq_some_iff.2 ⟨e', hf'⟩

theorem isDirectory (hd : t.isDirectory path) : t'.isDirectory path := by
  obtain ⟨a, hf⟩ := isDirectory_iff.1 hd
  obtain ⟨e', hf', hkind⟩ := h.find hf
  cases hkind
  exact isDirectory_iff.2 ⟨a, hf'⟩

theorem isFile (hi : t.isFile path) : t'.isFile path := by
  obtain ⟨a, content, hf⟩ := isFile_iff.1 hi
  obtain ⟨e', hf', hkind⟩ := h.find hf
  cases hkind
  exact isFile_iff.2 ⟨a, _, hf'⟩

end Grows

end ChaiBind.FileTree
