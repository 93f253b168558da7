import ChaiBind.Discovery.Headers
import ChaiBind.Proofs.FileTree.Listings

/-!
# Files that a scan finds

A scan of a tree without links below its root finds each file there that is neither left out nor the
output, once, in the order of the components of paths by their bytes (`scan_lists`). What it finds is
the listing of the root (`scan_eq_ok`), so that the order in which the entries of the tree are given
makes no difference (`scan_congr`).
-/

namespace ChaiBind.FileTree

variable {t t' : FileTree} {c : Config} {root : Address}

/-- A path leads where the configured output does, which is there. -/
def IsOutput (t : FileTree) (c : Config) (path : String) : Prop :=
  ∃ a, t.canonical? c.output = some a ∧ t.canonical? path = some a

theorem isCandidate_iff (t : FileTree) (c : Config) (path : String) :
    t.isCandidate c path ↔ c.isExcluded path = false ∧ ¬ t.IsOutput c path := by
  unfold isCandidate IsOutput
  cases t.canonical? c.output with
  | none => simp
  | some a => simp

/-- Without links below its root a scan finds what is listed there, apart from what is no
candidate. -/
theorem scan_eq_ok (hroot : t.find c.source = .ok (root, .directory))
    (hlinks : ∀ below target, t.entry? (root ++ below) ≠ some (.link target)) :
    t.scan c = .ok (((t.filesBelow root).map (shownBelow c.source)).filter (t.isCandidate c)) := by
  obtain ⟨links, hr⟩ := find_eq_ok_iff.1 hroot
  have hwalk : t.walk c.source = .ok ((t.filesBelow root).map (shownBelow c.source)) := by
    rw [walk, hr]
    exact walkFrom_eq_ok hlinks _ _
  rw [scan, if_pos (isDirectory_iff.2 ⟨root, hroot⟩), hwalk]

/-! ## The order in which entries are given -/

/-- Trees in which the same lies everywhere grow into each other. -/
theorem grows_of_entry?_eq (hdirectory : t'.workingDirectory = t.workingDirectory)
    (h : ∀ a, t'.entry? a = t.entry? a) : t.Grows t' :=
  ⟨hdirectory, fun {a e} he => ⟨e, (h a).trans he, .refl e⟩⟩

theorem canonical?_of_entry?_eq (hdirectory : t'.workingDirectory = t.workingDirectory)
    (h : ∀ a, t'.entry? a = t.entry? a) (path : String) : t'.canonical? path = t.canonical? path := by
  refine Option.ext fun a => ⟨fun ha => ?_, fun ha => ?_⟩
  · exact (grows_of_entry?_eq hdirectory.symm fun a => (h a).symm).canonical? ha
  · exact (grows_of_entry?_eq hdirectory h).canonical? ha

theorem entry?_eq_of_perm (hperm : t'.entries.entries.Perm t.entries.entries) (a : Address) :
    t'.entry? a = t.entry? a := by
  unfold entry?
  split
  · rfl
  · refine Option.ext fun e => ?_
    rw [Table.get?_eq_some_iff, Table.get?_eq_some_iff]
    exact hperm.mem_iff

/-- A scan does not depend on the order in which the entries of the tree are given. -/
theorem scan_congr (ht : t.Sound) (hroot : t.find c.source = .ok (root, .directory))
    (hlinks : ∀ below target, t.entry? (root ++ below) ≠ some (.link target))
    (hdirectory : t'.workingDirectory = t.workingDirectory)
    (hperm : t'.entries.entries.Perm t.entries.entries) : t'.scan c = t.scan c := by
  have hentry := entry?_eq_of_perm hperm
  have ht' : t'.Sound := by
    refine ⟨fun {a name e} he => ?_, fun {a name e} he => ?_⟩
    all_goals rw [hentry] at he
    · exact (hentry a).trans (ht.parent he)
    · exact ht.isName he
  obtain ⟨e, hroot', hkind⟩ := (grows_of_entry?_eq hdirectory hentry).find hroot
  cases hkind
  have hfiles : t'.filesBelow root = t.filesBelow root := filesBelow_congr fun b => by
    rw [mem_filesBelow_iff ht' (entry?_of_find hroot'), mem_filesBelow_iff ht (entry?_of_find hroot),
      hentry]
  have hcandidate : t'.isCandidate c = t.isCandidate c := by
    funext path
    simp only [isCandidate, canonical?_of_entry?_eq hdirectory hentry]
  rw [scan_eq_ok hroot' fun below target => (hentry _).symm ▸ hlinks below target,
    scan_eq_ok hroot hlinks, hfiles, hcandidate]

/-! ## What is found -/

/-- What lies below the root of a scan is where its path leads, if that can be used. -/
theorem canonical?_shownBelow (ht : t.Sound) (hroot : t.find c.source = .ok (root, .directory))
    (hlinks : ∀ below target, t.entry? (root ++ below) ≠ some (.link target)) {below : Address}
    {e : Entry} (he : t.entry? (root ++ below) = some e)
    (husable : Usable (shownBelow c.source below)) :
    t.canonical? (shownBelow c.source below) = some (root ++ below) := by
  by_cases hbelow : below = []
  · rw [hbelow, List.append_nil]
    exact canonical?_eq_some_iff.2 ⟨_, hroot⟩
  · obtain ⟨links, hr⟩ := find_eq_ok_iff.1 hroot
    refine (shows_of_resolve hr).canonical?_below ht he (fun target hlink => ?_) hbelow husable
    exact hlinks below target (hlink ▸ he)

/-- A scan of a directory without links below it finds every file that is not left out and is not the
output, each once and no other, in the order of components, whatever order the entries of the tree
are given in. What is shown under a path that is not too long is the output if it lies where the
output does. -/
theorem scan_lists (ht : t.Sound) (hroot : t.find c.source = .ok (root, .directory))
    (hlinks : ∀ below target, t.entry? (root ++ below) ≠ some (.link target)) :
    ∃ found : List Address, t.scan c = .ok (found.map (shownBelow c.source)) ∧
      (∀ below, below ∈ found ↔
        (∃ content, t.entry? (root ++ below) = some (.file content)) ∧
          c.isExcluded (shownBelow c.source below) = false ∧
          ¬ t.IsOutput c (shownBelow c.source below)) ∧
      (∀ below e, t.entry? (root ++ below) = some e → Usable (shownBelow c.source below) →
        (t.IsOutput c (shownBelow c.source below) ↔
          t.canonical? c.output = some (root ++ below))) ∧
      (found.map (shownBelow c.source)).Nodup ∧
      (found.map (shownBelow c.source)).Pairwise Path.Precedes ∧
      ∀ t' : FileTree, t'.workingDirectory = t.workingDirectory →
        t'.entries.entries.Perm t.entries.entries → t'.scan c = t.scan c := by
  have hdirectory := entry?_of_find hroot
  obtain ⟨links, hr⟩ := find_eq_ok_iff.1 hroot
  let found := (t.filesBelow root).filter (t.isCandidate c ∘ shownBelow c.source)
  have hpaths : found.map (shownBelow c.source) =
      ((t.filesBelow root).map (shownBelow c.source)).filter (t.isCandidate c) :=
    List.filter_map.symm
  have hordered : (found.map (shownBelow c.source)).Pairwise Path.Precedes := by
    rw [hpaths]
    exact (pairwise_precedes_filesBelow ht hdirectory (shows_of_resolve hr).nonempty).filter _
  refine ⟨found, ?_, fun below => ?_, fun below e he husable => ?_, ?_, hordered,
    fun t' hwd hperm => scan_congr ht hroot hlinks hwd hperm⟩
  · rw [scan_eq_ok hroot hlinks, hpaths]
  · rw [List.mem_filter, mem_filesBelow_iff ht hdirectory, Function.comp_apply, isCandidate_iff]
  · unfold IsOutput
    rw [canonical?_shownBelow ht hroot hlinks he husable]
    simp [eq_comm]
  · refine hordered.imp fun {p q} hlt => ?_
    rintro rfl
    exact Path.not_precedes_self p hlt

/-! ### A tree with an old output -/

/-- A header, a directory with another one, an old output and a file that is left out. -/
def sourceTree : FileTree :=
  ((((((⟨Table.empty, []⟩ : FileTree).put ["src"] .directory).put ["src", "a.h"]
    (.file ByteArray.empty)).put ["src", "a"] .directory).put ["src", "a", "z.h"]
    (.file ByteArray.empty)).put ["src", "out.h"] (.file ByteArray.empty)).put ["src", "b.tmp"]
    (.file ByteArray.empty)

/-- The output goes into the tree that is scanned. -/
def sourceConfig : Config :=
  { Config.defaults with source := "src", output := "./src/out.h", excludes := ["*.tmp"] }

theorem sound_sourceTree : sourceTree.Sound := by
  refine (Fits.vacant (a := ["src"]) rfl rfl (by decide)).sound ?_
  refine (Fits.vacant (a := ["src"]) rfl rfl (by decide)).sound ?_
  refine (Fits.vacant (a := ["src", "a"]) rfl rfl (by decide)).sound ?_
  refine (Fits.vacant (a := ["src"]) rfl rfl (by decide)).sound ?_
  refine (Fits.vacant (a := ["src"]) rfl rfl (by decide)).sound ?_
  exact (Fits.vacant (a := []) rfl rfl (by decide)).sound (sound_empty [])

theorem entry?_sourceTree_ne_link (a : Address) (target : String) :
    sourceTree.entry? a ≠ some (.link target) := by
  intro h
  unfold entry? at h
  split at h
  · cases h
  · have hmem := Table.get?_eq_some_iff.1 h
    simp [sourceTree, put, Table.insert, Table.alter, Table.alterEntries, Table.empty] at hmem

/-- The two headers are found, that in the directory first, and in whatever order the entries of the
tree are given. -/
theorem scan_sourceTree : sourceTree.Sound ∧
    sourceTree.find sourceConfig.source = .ok (["src"], .directory) ∧
    (∀ below target, sourceTree.entry? (["src"] ++ below) ≠ some (.link target)) ∧
    ∃ found : List Address,
      sourceTree.scan sourceConfig = .ok (found.map (shownBelow sourceConfig.source)) ∧
      ["a", "z.h"] ∈ found ∧ ["a.h"] ∈ found ∧ ["out.h"] ∉ found ∧ ["b.tmp"] ∉ found ∧
      (found.map (shownBelow sourceConfig.source)).Pairwise Path.Precedes ∧
      ∀ t' : FileTree, t'.workingDirectory = [] →
        t'.entries.entries.Perm sourceTree.entries.entries →
        t'.scan sourceConfig = sourceTree.scan sourceConfig := by
  have hroot : sourceTree.find sourceConfig.source = .ok (["src"], .directory) :=
    find_of_way (by decide) (.enter rfl (by decide) rfl (.arrived rfl))
  have hlinks : ∀ below target, sourceTree.entry? (["src"] ++ below) ≠ some (.link target) :=
    fun below => entry?_sourceTree_ne_link (["src"] ++ below)
  have hout : sourceTree.canonical? sourceConfig.output = some ["src", "out.h"] := by
    have hfile : sourceTree.find sourceConfig.output =
        .ok (["src", "out.h"], .file ByteArray.empty) :=
      find_of_way (by decide)
        (.stay rfl (.inl rfl) (.enter rfl (by decide) rfl (.reach rfl (by decide) rfl)))
    exact canonical?_eq_some_iff.2 ⟨_, hfile⟩
  obtain ⟨found, hscan, hmem, houtput, -, hordered, hperm⟩ :=
    scan_lists sound_sourceTree hroot hlinks
  have hfound : ∀ below content, sourceTree.entry? (["src"] ++ below) = some (.file content) →
      Usable (shownBelow sourceConfig.source below) → (below ∈ found ↔
        sourceConfig.isExcluded (shownBelow sourceConfig.source below) = false ∧
          below ≠ ["out.h"]) := by
    intro below content hfile husable
    have hsame : some ["src", "out.h"] = some (["src"] ++ below) ↔ below = ["out.h"] := by
      rw [Option.some.injEq]
      exact ⟨fun h => (List.cons.inj h).2.symm, fun h => h ▸ rfl⟩
    rw [hmem, houtput below _ hfile husable, hout, hsame]
    exact ⟨And.right, fun h => ⟨⟨content, hfile⟩, h⟩⟩
  refine ⟨sound_sourceTree, hroot, hlinks, found, hscan, ?_, ?_, ?_, ?_, hordered, hperm⟩
  · exact (hfound ["a", "z.h"] _ rfl (by decide)).2 ⟨by decide, by decide⟩
  · exact (hfound ["a.h"] _ rfl (by decide)).2 ⟨by decide, by decide⟩
  · exact fun h => ((hfound ["out.h"] _ rfl (by decide)).1 h).2 rfl
  · exact fun h => absurd ((hfound ["b.tmp"] _ rfl (by decide)).1 h).1 (by decide)

end ChaiBind.FileTree
