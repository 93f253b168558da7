import ChaiBind.Disk
import ChaiBind.Proofs.Registry.Keys
import ChaiBind.Proofs.Run.Inputs

/-!
# Runs that fail

A run writes last, so that whatever makes it fail before that (`FailsEarly`) leaves the tree as it
is (`leaves_of_failsEarly`). There is nothing else that makes a run fail but writing itself, which may
have made directories by then (`generate_failure_cases`).

* `prepared_eq_error_iff`: a run fails early exactly if it prepares no header.
* `save_self`: nothing is written to the disk for a tree that is left as it is.
-/

namespace ChaiBind

open FileTree

variable {t : FileTree} {o : GenerateOptions} {f : Failure}

/-! ## Saving -/

theorem Entry.save_self (a : Address) (e : Entry) : e.save a (some e) = pure () := by
  cases e with
  | directory => rfl
  | link target => rfl
  | file content =>
    rw [Entry.save, if_pos rfl]

theorem forM_eq_pure {α : Type} {l : List α} {act : α → IO Unit} (h : ∀ x ∈ l, act x = pure ()) :
    l.forM act = pure () := by
  induction l with
  | nil => rfl
  | cons x l ih =>
    obtain ⟨hx, hl⟩ := List.forall_mem_cons.1 h
    show (act x >>= fun _ => l.forM act) = pure ()
    rw [hx, ih hl]
    rfl

/-- Nothing is written to the disk of a tree that has not changed. -/
theorem FileTree.save_self (t : FileTree) : t.save t = pure () := by
  refine forM_eq_pure fun ⟨a, e⟩ he => ?_
  dsimp only
  rw [Table.get?_eq_some_iff.2 he]
  exact Entry.save_self a e

/-! ## Failing early -/

/-- What makes a run fail before it writes. -/
inductive FailsEarly (t : FileTree) (o : GenerateOptions) : Failure → Prop
  /-- The configuration cannot be loaded. -/
  | config {e} (load : t.loadConfig o.source.manifest = .error e) : FailsEarly t o e
  /-- The tree of headers cannot be scanned. -/
  | scan {c e} (resolve : o.source.resolve t = .ok c) (scan : t.scan c = .error e) :
      FailsEarly t o e
  /-- A header cannot be read. -/
  | header {c paths e} (resolve : o.source.resolve t = .ok c) (scan : t.scan c = .ok paths)
      (load : t.loadHeaders c c.source paths = .error e) : FailsEarly t o e
  /-- A class is among its own ancestors. -/
  | cycle {c units cycle} (resolve : o.source.resolve t = .ok c)
      (discovered : discovered t c = .ok units)
      (generate : generate units c.guardName = .error cycle) : FailsEarly t o (.cycle cycle)
  /-- There are warnings, and they are denied. -/
  | warnings {c units g} (resolve : o.source.resolve t = .ok c)
      (discovered : discovered t c = .ok units) (generate : generate units c.guardName = .ok g)
      (denied : o.denyWarnings) (warned : Diagnostic.hasWarnings g.diagnostics) :
      FailsEarly t o (.warnings (Diagnostic.warningCount g.diagnostics))

theorem bind_eq_error_iff {ε α β : Type} {x : Except ε α} {next : α → Except ε β} {e : ε} :
    (x >>= next) = .error e ↔ x = .error e ∨ ∃ a, x = .ok a ∧ next a = .error e := by
  cases x with
  | error e' => simp [bind, Except.bind]
  | ok a => simp [bind, Except.bind]

theorem SourceOptions.resolve_eq_error_iff {o : SourceOptions} :
    o.resolve t = .error f ↔ t.loadConfig o.manifest = .error f := by
  rw [resolve, bind_eq_error_iff]
  simp [pure, Except.pure]

theorem admitted_eq_error_iff {c : Config} {denyWarnings : Bool} {g : Generated} :
    admitted c denyWarnings g = .error f ↔ denyWarnings ∧ Diagnostic.hasWarnings g.diagnostics ∧
      f = .warnings (Diagnostic.warningCount g.diagnostics) := by
  unfold admitted
  split
  · rename_i h
    obtain ⟨hdenied, hwarned⟩ := Bool.and_eq_true_iff.1 h
    simp [hdenied, hwarned, eq_comm]
  · rename_i h
    refine ⟨nofun, fun ⟨hdenied, hwarned, _⟩ => absurd ?_ h⟩
    rw [hdenied, hwarned]
    rfl

/-- A run fails early exactly if it prepares no header. -/
theorem prepared_eq_error_iff : prepared t o = .error f ↔ FailsEarly t o f := by
  simp only [prepared, bind_eq_error_iff, SourceOptions.resolve_eq_error_iff]
  constructor
  · rintro (hload | ⟨c, hresolve, hdiscovered | ⟨units, hunits, hgenerate | ⟨g, hg, hadmitted⟩⟩⟩)
    · exact .config hload
    · rcases bind_eq_error_iff.1 hdiscovered with hscan | ⟨paths, hscan, hheaders⟩
      · exact .scan hresolve hscan
      · exact .header hresolve hscan hheaders
    · cases hcycle : generate units c.guardName with
      | ok g =>
        rw [hcycle] at hgenerate
        cases hgenerate
      | error cycle =>
        rw [hcycle] at hgenerate
        cases hgenerate
        exact .cycle hresolve hunits hcycle
    · obtain ⟨hdenied, hwarned, rfl⟩ := admitted_eq_error_iff.1 hadmitted
      exact .warnings hresolve hunits (mapError_eq_ok_iff.1 hg) hdenied hwarned
  · rintro (hload | ⟨hresolve, hscan⟩ | ⟨hresolve, hscan, hheaders⟩ |
      ⟨hresolve, hunits, hcycle⟩ | ⟨hresolve, hunits, hg, hdenied, hwarned⟩)
    · exact .inl hload
    · exact .inr ⟨_, hresolve, .inl (bind_eq_error_iff.2 (.inl hscan))⟩
    · exact .inr ⟨_, hresolve, .inl (bind_eq_error_iff.2 (.inr ⟨_, hscan, hheaders⟩))⟩
    · exact .inr ⟨_, hresolve, .inr ⟨_, hunits, .inl (by rw [hcycle]; rfl)⟩⟩
    · exact .inr ⟨_, hresolve, .inr ⟨_, hunits, .inr ⟨_, mapError_eq_ok_iff.2 hg,
        admitted_eq_error_iff.2 ⟨hdenied, hwarned, rfl⟩⟩⟩⟩

/-! ## Failing to write -/

/-- Writing the output fails only at a directory of its path or at the file, and nothing but
directories has come by then. -/
theorem writeOutput_error {path text : String} {t' : FileTree}
    (h : Edit.on (writeOutput path text) t = (.error f, t')) :
    ((∃ parent e, f = .file .makeDirectory parent e) ∨ ∃ e, f = .file .writeOutput path e) ∧
      t.AddsDirectories t' := by
  have hwrite : ∀ {t₁ : FileTree},
      Edit.on (ExceptT.adapt (.file .writeOutput path) (write path text.toUTF8)) t₁ =
        (.error f, t') → (∃ e, f = .file .writeOutput path e) ∧ t' = t₁ := by
    intro t₁ h
    rw [Edit.on_adapt, on_write] at h
    split at h <;> cases h
    · exact ⟨⟨_, rfl⟩, rfl⟩
    · exact ⟨⟨_, rfl⟩, rfl⟩
  have hmade : ∀ parent : String, Edit.on (do
      ExceptT.adapt (.file .makeDirectory parent) (makeDirectories parent)
      ExceptT.adapt (.file .writeOutput path) (write path text.toUTF8)) t = (.error f, t') →
      ((∃ parent e, f = .file .makeDirectory parent e) ∨ ∃ e, f = .file .writeOutput path e) ∧
        t.AddsDirectories t' := by
    intro parent h
    have hadds := addsDirectories_makeChain (chainOf (parent.toList.length + 1) parent.toList) t
    rw [Edit.on_bind, Edit.on_adapt, makeDirectories] at h
    rcases hchain : Edit.on (makeChain (chainOf (parent.toList.length + 1) parent.toList)) t with
      ⟨e | ⟨⟩, t₁⟩ <;> rw [hchain] at h hadds
    · cases h
      exact ⟨.inl ⟨parent, e, rfl⟩, hadds⟩
    · obtain ⟨hfailure, rfl⟩ := hwrite h
      exact ⟨.inr hfailure, hadds⟩
  unfold writeOutput at h
  split at h
  · obtain ⟨hfailure, rfl⟩ := hwrite h
    exact ⟨.inr hfailure, .refl t'⟩
  · obtain ⟨hfailure, rfl⟩ := hwrite h
    exact ⟨.inr hfailure, .refl t'⟩
  · exact hmade _ h

/-- A run that fails either fails early or fails to write its output, and then nothing but
directories has come. -/
theorem generate_failure_cases (h : ((Command.generate o).run t).result = .error f) :
    FailsEarly t o f ∨
      ((∃ parent e, f = .file .makeDirectory parent e) ∨ ∃ path e, f = .file .writeOutput path e) ∧
        t.AddsDirectories ((Command.generate o).run t).tree := by
  rw [run_generate] at h ⊢
  rcases generateOutput_cases t o with ⟨f', hprepared, hresult, -⟩ | ⟨c, g, -, hwrite⟩
  · cases h.symm.trans hresult
    exact .inl (prepared_eq_error_iff.1 hprepared)
  · rw [h] at hwrite
    obtain ⟨hfailure, hadds⟩ := writeOutput_error hwrite
    exact .inr ⟨hfailure.imp_right fun ⟨e, he⟩ => ⟨c.output, e, he⟩, hadds⟩

/-! ## What is left as it was -/

/-- A run that fails early ends with that failure and leaves every file and directory as it was. A
check and a listing do so whatever they return. -/
theorem leaves_of_failsEarly (t : FileTree) :
    (∀ o f, FailsEarly t o f → ((Command.generate o).run t).result = .error f ∧
      ((Command.generate o).run t).tree = t) ∧
    (∀ o, ((Command.check o).run t).tree = t) ∧ ∀ o, ((Command.list o).run t).tree = t := by
  refine ⟨fun o f h => ?_, fun _ => rfl, fun _ => rfl⟩
  rw [run_generate]
  rcases generateOutput_cases t o with ⟨f', hprepared, hresult, htree⟩ | ⟨c, g, hprepared, -⟩
  · cases (prepared_eq_error_iff.2 h).symm.trans hprepared
    exact ⟨hresult, htree⟩
  · cases (prepared_eq_error_iff.2 h).symm.trans hprepared

/-! ### Two headers and an earlier output -/

section

variable (first second : String) (earlier : ByteArray)

/-- The headers are in a directory of their own. -/
def pairTree : FileTree :=
  ((((⟨Table.empty, []⟩ : FileTree).put ["o.h"] (.file earlier)).put ["src"] .directory).put
    ["src", "a.h"] (.file first.toUTF8)).put ["src", "b.h"] (.file second.toUTF8)

/-- Reads the headers and writes over the output. -/
def pairOptions : GenerateOptions := ⟨⟨some "src", some "o.h", none⟩, false, false⟩

/-- What the options make of the defaults. -/
def pairConfig : Config := { Config.defaults with source := "src", output := "o.h" }

theorem resolve_pairTree :
    pairOptions.source.resolve (pairTree first second earlier) = .ok pairConfig := by
  have hmissing : (pairTree first second earlier).find configFileName = .error .notFound :=
    find_of_missing (by decide) rfl rfl (by decide) rfl
  have hload : (pairTree first second earlier).loadConfig none = .ok Config.defaults := by
    rw [loadConfig, isFile, hmissing]
    rfl
  exact SourceOptions.resolve_eq_ok_iff.2 ⟨_, hload, rfl⟩

theorem find_pairTree :
    (pairTree first second earlier).find "o.h" = .ok (["o.h"], .file earlier) ∧
    (pairTree first second earlier).find "src/a.h" = .ok (["src", "a.h"], .file first.toUTF8) ∧
    (pairTree first second earlier).find "src/b.h" = .ok (["src", "b.h"], .file second.toUTF8) := by
  refine ⟨find_of_way (by decide) (.reach rfl (by decide) rfl), ?_, ?_⟩ <;>
    exact find_of_way (by decide) (.enter rfl (by decide) rfl (.reach rfl (by decide) rfl))

theorem walk_pairTree :
    (pairTree first second earlier).isDirectory "src" ∧
    (pairTree first second earlier).walk "src" = .ok ["src/a.h", "src/b.h"] := by
  have hsource : (pairTree first second earlier).resolve .look "src" =
      .ok (.found ["src"] .directory, maxLinks) :=
    resolve_eq_ok_iff.2 ⟨by decide, Way.enter rfl (by decide) rfl (.arrived rfl)⟩
  have hchildren : (pairTree first second earlier).children ["src"] =
      [("a.h", .file first.toUTF8), ("b.h", .file second.toUTF8)] :=
    children_eq_of_perm (.refl _) (by decide : ["a.h", "b.h"].Pairwise (· < ·))
  refine ⟨isDirectory_iff.2 ⟨_, find_eq_ok_iff.2 ⟨_, hsource⟩⟩, ?_⟩
  rw [walk, hsource]
  dsimp only
  rw [walkFrom_eq, hchildren]
  rfl

theorem isCandidate_pairTree :
    ∀ p ∈ ["src/a.h", "src/b.h"], (pairTree first second earlier).isCandidate pairConfig p := by
  obtain ⟨hout, ha, hb⟩ := find_pairTree first second earlier
  have hne : ∀ {p a e}, (pairTree first second earlier).find p = .ok (a, e) → a ≠ ["o.h"] →
      (pairTree first second earlier).isCandidate pairConfig p := by
    intro p a e hfind hne
    refine (isCandidate_of_ne fun out hcanonical hp => hne ?_).trans rfl
    obtain ⟨_, hfound⟩ := canonical?_eq_some_iff.1 hcanonical
    obtain ⟨_, hfound'⟩ := canonical?_eq_some_iff.1 hp
    cases hfound.symm.trans hout
    cases hfound'.symm.trans hfind
    rfl
  simp only [List.forall_mem_cons, List.not_mem_nil, false_implies, implies_true, and_true]
  exact ⟨hne ha (by decide), hne hb (by decide)⟩

variable {first second} in
theorem discovered_pairTree (hfirst : Header.isScriptable first.toList)
    (hsecond : Header.isScriptable second.toList) :
    discovered (pairTree first second earlier) pairConfig =
      .ok [⟨"src/a.h", "a.h", first⟩, ⟨"src/b.h", "b.h", second⟩] := by
  obtain ⟨-, ha, hb⟩ := find_pairTree first second earlier
  obtain ⟨hsource, hwalk⟩ := walk_pairTree first second earlier
  refine discovered_eq_ok_iff.2 ⟨hsource, _, hwalk,
    [some ⟨"src/a.h", "a.h", first⟩, some ⟨"src/b.h", "b.h", second⟩], ?_, rfl⟩
  have hheaders : ["src/a.h", "src/b.h"].filter pairConfig.isHeader = ["src/a.h", "src/b.h"] := by
    decide
  have hincludes : Path.includeText "src" "src/a.h" = "a.h" ∧
      Path.includeText "src" "src/b.h" = "b.h" := by
    decide
  rw [List.filter_eq_self.2 (isCandidate_pairTree first second earlier), hheaders, List.mapM_cons,
    List.mapM_cons, loadHeader_of_read (read_eq_ok_iff.2 ⟨_, ha⟩),
    loadHeader_of_read (read_eq_ok_iff.2 ⟨_, hb⟩), if_pos hfirst, if_pos hsecond]
  show Except.ok _ = _
  rw [show pairConfig.source = "src" from rfl, hincludes.1, hincludes.2]
  rfl

end

/-- A header with a class that names its base. -/
def heirText (name base : String) : String :=
  "//= SCRIPTABLE\n//= SCRIPTABLE BASES " ++ base ++ "\nclass " ++ name ++
    " \x7b\n//= BEGIN SCRIPTABLE\n//= END SCRIPTABLE\n\x7d;\n"

theorem generate_heirs :
    generate [⟨"src/a.h", "a.h", heirText "A" "B"⟩, ⟨"src/b.h", "b.h", heirText "B" "A"⟩]
      pairConfig.guardName = .error ⟨["A", "B", "A"]⟩ := by
  have herror : (match generate [⟨"src/a.h", "a.h", heirText "A" "B"⟩,
        ⟨"src/b.h", "b.h", heirText "B" "A"⟩] pairConfig.guardName with
      | .ok _ => none
      | .error cycle => some cycle) = some ⟨["A", "B", "A"]⟩ := by
    decide +kernel
  split at herror
  · cases herror
  · rename_i h
    rw [h, Option.some.inj herror]

/-- Two classes are bases of each other, and the output of an earlier run stays. -/
theorem leaves_of_failsEarly_cycle :
    let t := pairTree (heirText "A" "B") (heirText "B" "A") "// previous\n".toUTF8
    let cycle : InheritanceCycle := ⟨["A", "B", "A"]⟩
    FailsEarly t pairOptions (.cycle cycle) ∧
    ((Command.generate pairOptions).run t).result = .error (.cycle cycle) ∧
    ((Command.generate pairOptions).run t).tree.read "o.h" = .ok "// previous\n".toUTF8 ∧
    ((Command.generate pairOptions).run t).tree = t := by
  intro t cycle
  have hfails : FailsEarly t pairOptions (.cycle cycle) :=
    .cycle (resolve_pairTree _ _ _) (discovered_pairTree _ (by decide +kernel) (by decide +kernel))
      generate_heirs
  obtain ⟨hresult, htree⟩ := (leaves_of_failsEarly t).1 _ _ hfails
  refine ⟨hfails, hresult, ?_, htree⟩
  rw [htree]
  exact read_eq_ok_iff.2 ⟨_, (find_pairTree _ _ _).1⟩

end ChaiBind
