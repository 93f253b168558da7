import ChaiBind.Proofs.FileTree.Walks
import ChaiBind.Proofs.Run.Sessions
import ChaiBind.Proofs.Text.Utf8

/-!
# What a run reads once a file has been written

A file that is written, in directories that may be new, changes nothing else. So whatever is read
under a path that does not lead to it reads the same (`WritesAt.loadConfig`, `WritesAt.loadHeader`),
and the same headers are discovered (`WritesAt.discovered`): of the paths that a scan finds
(`filter_isCandidate`), those that are new lead to the file, which a scan passes over as soon as its
own path leads there.
-/

namespace ChaiBind

open FileTree

namespace FileTree.WritesAt

variable {t t' : FileTree} {out : Address} {content : ByteArray} {path : String}

/-! ## Reading -/

theorem read (hw : t.WritesAt t' out content) (hpath : t'.canonical? path ≠ some out)
    {bytes : ByteArray} (h : t.read path = .ok bytes) : t'.read path = .ok bytes := by
  obtain ⟨a, hfind⟩ := read_eq_ok_iff.1 h
  obtain ⟨e, hfind', -⟩ := hw.grows.find hfind
  have hne : a ≠ out := fun heq => hpath (canonical?_eq_some_iff.2 ⟨e, heq ▸ hfind'⟩)
  have hentry := entry?_of_find hfind'
  rw [hw.keeps hne (entry?_of_find hfind)] at hentry
  cases hentry
  exact read_eq_ok_iff.2 ⟨a, hfind'⟩

theorem loadConfigFrom (hw : t.WritesAt t' out content) (hpath : t'.canonical? path ≠ some out)
    {c : Config} (h : t.loadConfigFrom path = .ok c) : t'.loadConfigFrom path = .ok c := by
  have hread : t'.readText path = t.readText path := by
    cases hbytes : t.read path with
    | error e =>
      have hnone : t.loadConfigFrom path = .error (.file .readConfig path e) := by
        rw [FileTree.loadConfigFrom, readText, hbytes]
        rfl
      rw [hnone] at h
      cases h
    | ok bytes => rw [readText, readText, hw.read hpath hbytes, hbytes]
  rw [FileTree.loadConfigFrom, hread]
  exact h

/-- The same configuration is loaded if its file is not the one that was written, and does not come
up with that. -/
theorem loadConfig (hw : t.WritesAt t' out content) {manifest : Option String}
    (hfile : t'.isFile (manifest.getD configFileName) →
      t.isFile (manifest.getD configFileName) ∧
        t'.canonical? (manifest.getD configFileName) ≠ some out) {c : Config}
    (h : t.loadConfig manifest = .ok c) : t'.loadConfig manifest = .ok c := by
  have hsame : t'.isFile (manifest.getD configFileName) =
      t.isFile (manifest.getD configFileName) :=
    Bool.eq_iff_iff.2 ⟨fun h => (hfile h).1, hw.grows.isFile⟩
  cases manifest with
  | none =>
    dsimp only [Option.getD_none, FileTree.loadConfig] at hfile hsame h ⊢
    rw [hsame]
    split
    · rw [if_pos ‹_›] at h
      exact hw.loadConfigFrom (hfile (hsame ▸ ‹_›)).2 h
    · rw [if_neg ‹_›] at h
      exact h
  | some path =>
    dsimp only [Option.getD_some, FileTree.loadConfig] at hfile hsame h ⊢
    rw [hsame]
    split
    · rw [if_pos ‹_›] at h
      exact hw.loadConfigFrom (hfile (hsame ▸ ‹_›)).2 h
    · rw [if_neg ‹_›] at h
      cases h

/-! ## Headers -/

theorem loadHeader (hw : t.WritesAt t' out content) (hpath : t'.canonical? path ≠ some out)
    {root : String} {unit? : Option SourceUnit} (h : t.loadHeader root path = .ok unit?) :
    t'.loadHeader root path = .ok unit? := by
  cases hbytes : t.read path with
  | error e =>
    rw [FileTree.loadHeader, hbytes] at h
    cases h
  | ok bytes =>
    rw [FileTree.loadHeader, hbytes] at h
    rw [FileTree.loadHeader, hw.read hpath hbytes]
    exact h

end FileTree.WritesAt

theorem FileTree.loadConfig_of_find {t : FileTree} {path text : String} {a : Address}
    (h : t.find path = .ok (a, .file text.toUTF8)) :
    t.loadConfig (some path) = (Config.ofText text).mapError .config := by
  rw [loadConfig, if_pos (isFile_iff.2 ⟨a, _, h⟩), loadConfigFrom, readText_of_find h]

/-- A file with some text is taken as a header if the text opts in. -/
theorem FileTree.loadHeader_of_read {t : FileTree} {path text : String}
    (h : t.read path = .ok text.toUTF8) (root : String) :
    t.loadHeader root path = .ok (if Header.isScriptable text.toList then
      some ⟨path, Path.includeText root path, text⟩ else none) := by
  rw [loadHeader, h]
  dsimp only
  rw [Text.decodeLossy_toUTF8]
  split <;> rfl

theorem FileTree.of_loadHeader {t : FileTree} {root path : String} {unit? : Option SourceUnit}
    (h : t.loadHeader root path = .ok unit?) :
    t.leads path ∧ ∀ u ∈ unit?, u.path = path ∧ u.includePath = Path.includeText root path := by
  cases hbytes : t.read path with
  | error e =>
    rw [loadHeader, hbytes] at h
    cases h
  | ok bytes =>
    refine ⟨leads_of_read hbytes, ?_⟩
    rw [loadHeader, hbytes] at h
    dsimp only at h
    split at h
    · cases h
      intro u hu
      cases hu
      exact ⟨rfl, rfl⟩
    · cases h
      exact nofun

/-- A path is that of a header that no pattern leaves out. -/
def Config.isInput (c : Config) (path : String) : Bool := c.isHeader path && !c.isExcluded path

theorem discovered_eq_ok_iff {t : FileTree} {c : Config} {units : List SourceUnit} :
    discovered t c = .ok units ↔ t.isDirectory c.source ∧ ∃ paths, t.walk c.source = .ok paths ∧
      ∃ loaded, ((paths.filter (t.isCandidate c)).filter c.isHeader).mapM (t.loadHeader c.source) =
        .ok loaded ∧ loaded.filterMap id = units := by
  rw [discovered, bind_eq_ok_iff]
  unfold scan loadHeaders
  constructor
  · rintro ⟨paths, hpaths, hload⟩
    split at hpaths
    · rename_i hdirectory
      cases hwalk : t.walk c.source with
      | error fault =>
        rw [hwalk] at hpaths
        cases hpaths
      | ok met =>
        rw [hwalk] at hpaths
        cases hpaths
        obtain ⟨loaded, hloaded, hunits⟩ := bind_eq_ok_iff.1 hload
        exact ⟨hdirectory, met, rfl, loaded, hloaded, Except.ok.inj hunits⟩
    · split at hpaths <;> cases hpaths
  · rintro ⟨hdirectory, paths, hwalk, loaded, hloaded, rfl⟩
    rw [if_pos hdirectory, hwalk]
    exact ⟨_, rfl, bind_eq_ok_iff.2 ⟨loaded, hloaded, rfl⟩⟩

/-- Elements of a list that give nothing may as well be left out. -/
theorem mapM_filter {ε α β : Type} {f f' : α → Except ε (Option β)} {keep : α → Bool} {l : List α}
    (hkeep : ∀ x ∈ l, keep x → ∀ y, f x = .ok y → f' x = .ok y)
    (hdrop : ∀ x ∈ l, keep x = false → ∀ y, f x = .ok y → y = none) {ys : List (Option β)}
    (h : l.mapM f = .ok ys) :
    ∃ ys', (l.filter keep).mapM f' = .ok ys' ∧ ys'.filterMap id = ys.filterMap id := by
  have hall := forall₂_of_mapM h
  clear h
  induction hall with
  | nil => exact ⟨[], rfl, rfl⟩
  | @cons x y l ys hy _ ih =>
    obtain ⟨ys', hys', hsame⟩ := ih (fun x hx => hkeep x (List.mem_cons_of_mem _ hx))
      (fun x hx => hdrop x (List.mem_cons_of_mem _ hx))
    cases hx : keep x with
    | false =>
      obtain rfl := hdrop x List.mem_cons_self hx y hy
      rw [List.filter_cons_of_neg (by simp [hx])]
      exact ⟨ys', hys', by simpa using hsame⟩
    | true =>
      rw [List.filter_cons_of_pos hx]
      refine ⟨y :: ys', ?_, ?_⟩
      · rw [List.mapM_cons, hkeep x List.mem_cons_self hx y hy, hys']
        rfl
      · rw [List.filterMap_cons, List.filterMap_cons, hsame]

theorem mapM_ok_of_mem {ε α β : Type} {f : α → Except ε β} {l : List α} {ys : List β}
    (h : l.mapM f = .ok ys) {x : α} (hx : x ∈ l) : ∃ y ∈ ys, f x = .ok y := by
  have hall := forall₂_of_mapM h
  obtain ⟨i, hi, rfl⟩ := List.getElem_of_mem hx
  have hi' := hall.length_eq ▸ hi
  exact ⟨ys[i], List.getElem_mem hi', hall.get hi hi'⟩

theorem exists_of_mem_mapM {ε α β : Type} {f : α → Except ε β} {l : List α} {ys : List β}
    (h : l.mapM f = .ok ys) {y : β} (hy : y ∈ ys) : ∃ x ∈ l, f x = .ok y := by
  have hall := forall₂_of_mapM h
  obtain ⟨i, hi, rfl⟩ := List.getElem_of_mem hy
  have hi' := hall.length_eq.symm ▸ hi
  exact ⟨l[i], List.getElem_mem hi', hall.get hi' hi⟩

/-- What is discovered is a header that was met under its path. -/
theorem exists_loadHeader_of_discovered {t : FileTree} {c : Config} {units : List SourceUnit}
    (h : discovered t c = .ok units) {u : SourceUnit} (hu : u ∈ units) :
    ∃ path, t.loadHeader c.source path = .ok (some u) := by
  obtain ⟨-, paths, -, loaded, hloaded, rfl⟩ := discovered_eq_ok_iff.1 h
  obtain ⟨_, hmem, rfl⟩ := List.mem_filterMap.1 hu
  obtain ⟨path, -, hunit⟩ := exists_of_mem_mapM hloaded hmem
  exact ⟨path, hunit⟩

/-! ## Candidates -/

section

variable {t t' : FileTree} {c : Config} {a out : Address} {path : String} {paths : List String}

/-- A path that does not lead to the output is that of a candidate if no pattern leaves it out. -/
theorem FileTree.isCandidate_of_ne
    (h : ∀ a, t.canonical? c.output = some a → t.canonical? path ≠ some a) :
    t.isCandidate c path = !c.isExcluded path := by
  unfold isCandidate
  cases hc : t.canonical? c.output with
  | none => simp
  | some a => simp [h a hc]

/-- Where the output is not there yet, only patterns leave something out. -/
theorem FileTree.isCandidate_of_none (h : t.canonical? c.output = none) (path : String) :
    t.isCandidate c path = !c.isExcluded path :=
  isCandidate_of_ne fun a ha => by rw [h] at ha; cases ha

theorem FileTree.isCandidate_of_eq (hout : t.canonical? c.output = some a)
    (hpath : t.canonical? path = some a) : t.isCandidate c path = false := by
  simp [isCandidate, hout, hpath]

/-- The headers that a scan finds while the output is there. -/
theorem FileTree.filter_isCandidate (hout : t.canonical? c.output = some out)
    (hleads : ∀ p ∈ paths, c.isInput p → t.leads p) :
    (paths.filter (t.isCandidate c)).filter c.isHeader =
      (paths.filter (t.leadsElsewhere out)).filter c.isInput := by
  rw [List.filter_filter, List.filter_filter]
  refine List.filter_congr fun p hp => ?_
  cases hinput : c.isInput p with
  | false =>
    rw [Bool.false_and]
    cases hheader : c.isHeader p with
    | false => rw [Bool.false_and]
    | true =>
      have hexcluded : c.isExcluded p := by simpa [Config.isInput, hheader] using hinput
      simp [isCandidate, hexcluded]
  | true =>
    obtain ⟨a, ha⟩ := exists_canonical?_of_leads (hleads p hp hinput)
    obtain ⟨hheader, hincluded⟩ := Bool.and_eq_true_iff.1 hinput
    rw [hheader, Bool.true_and, Bool.true_and]
    by_cases haout : a = out
    · rw [isCandidate_of_eq hout (haout ▸ ha), leadsElsewhere_eq_false fun _ => haout ▸ ha]
    · have hne : ∀ b, t.canonical? c.output = some b → t.canonical? p ≠ some b := by
        intro b hb hpb
        rw [hout] at hb
        rw [ha, ← hb] at hpb
        exact haout (Option.some.inj hpb)
      rw [isCandidate_of_ne hne, hincluded]
      simp [leadsElsewhere, ha, haout]

/-- Of the headers that a scan finds before the output is there, those that will not be it. -/
theorem FileTree.Grows.filter_isCandidate (hg : t.Grows t')
    (hout : t'.canonical? c.output = some out) :
    ((paths.filter (t.isCandidate c)).filter c.isHeader).filter (t'.leadsElsewhere out) =
      (paths.filter (t'.leadsElsewhere out)).filter c.isInput := by
  rw [List.filter_filter, List.filter_filter, List.filter_filter]
  refine List.filter_congr fun p _ => ?_
  cases helsewhere : t'.leadsElsewhere out p with
  | false => simp only [Bool.false_and, Bool.and_false]
  | true =>
    have hne : ∀ a, t.canonical? c.output = some a → t.canonical? p ≠ some a := by
      intro a ha hpa
      have haout : some a = some out := (hg.canonical? ha).symm.trans hout
      simp [leadsElsewhere, hg.canonical? hpa, Option.some.inj haout] at helsewhere
    rw [isCandidate_of_ne hne, Bool.true_and, Bool.and_true, Config.isInput]

end

/-- The same headers are discovered if none of them lies where the file is written, and the paths of
all that are met then can be used. -/
theorem FileTree.WritesAt.discovered {t t' : FileTree} {out : Address} {content : ByteArray}
    (hw : t.WritesAt t' out content) (ht : t.Sound) (ht' : t'.Sound) {c : Config}
    (hout : t'.canonical? c.output = some out) {units : List SourceUnit}
    (hunits : ∀ u ∈ units, t.canonical? u.path ≠ some out)
    (hpaths : ∀ paths, t'.walk c.source = .ok paths → ∀ p ∈ paths, c.isInput p → t'.leads p)
    (h : discovered t c = .ok units) : discovered t' c = .ok units := by
  obtain ⟨hdirectory, paths, hwalk, loaded, hloaded, rfl⟩ := discovered_eq_ok_iff.1 h
  obtain ⟨paths', hwalk', hsame⟩ := walk_writesAt hw ht' ht hdirectory hwalk
  -- the file that is written is among what is loaded only as a header that does not opt in
  have hdrop : ∀ p ∈ (paths.filter (t.isCandidate c)).filter c.isHeader,
      t'.leadsElsewhere out p = false → ∀ unit?, t.loadHeader c.source p = .ok unit? →
        unit? = none := by
    intro p hp helsewhere unit? hunit
    obtain ⟨a, ha⟩ := exists_canonical?_of_leads (of_loadHeader hunit).1
    obtain rfl : a = out := by simpa [leadsElsewhere, hw.grows.canonical? ha] using helsewhere
    cases unit? with
    | none => rfl
    | some u =>
      obtain ⟨_, hmem, hsome⟩ := mapM_ok_of_mem hloaded hp
      cases hsome.symm.trans hunit
      have hpath := ((of_loadHeader hunit).2 u rfl).1
      exact absurd (hpath ▸ ha) (hunits u (List.mem_filterMap.2 ⟨some u, hmem, rfl⟩))
  have hkeep : ∀ p ∈ (paths.filter (t.isCandidate c)).filter c.isHeader,
      t'.leadsElsewhere out p → ∀ unit?, t.loadHeader c.source p = .ok unit? →
        t'.loadHeader c.source p = .ok unit? := by
    intro p hp helsewhere unit? hunit
    refine hw.loadHeader (fun hcanonical => ?_) hunit
    simp [leadsElsewhere, hcanonical] at helsewhere
  obtain ⟨loaded', hloaded', hsameUnits⟩ := mapM_filter hkeep hdrop hloaded
  rw [hw.grows.filter_isCandidate hout, ← hsame,
    ← filter_isCandidate hout (hpaths paths' hwalk')] at hloaded'
  exact discovered_eq_ok_iff.2 ⟨hw.grows.isDirectory hdirectory, paths', hwalk', loaded', hloaded',
    hsameUnits⟩

end ChaiBind
