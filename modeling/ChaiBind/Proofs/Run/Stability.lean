import ChaiBind.Proofs.FileTree.Files
import ChaiBind.Proofs.Run.Inputs

/-!
# Runs after a run

A run that has written its output can be repeated: a check passes, and the same run changes nothing
(`generate_stable`), provided that it kept its inputs. It may fail to (`generate_unstable_shades`): a
header that lies where the output goes is read like any other as long as the path of the output leads
nowhere, which it does until its directories are made.
-/

namespace ChaiBind

open FileTree

/-! ## A run after a run -/

/-- What a run that wrote the output of a configuration has left as it was. -/
structure KeepsInputs (t t' : FileTree) (o : SourceOptions) (c : Config) : Prop where
  /-- No header that was read lies where the output has been written. -/
  headers : ∀ units, discovered t c = .ok units →
    ∀ u ∈ units, t.canonical? u.path ≠ t'.canonical? c.output
  /-- No configuration file has come up with the directory of the output. -/
  config : t'.isFile (o.manifest.getD configFileName) → t.isFile (o.manifest.getD configFileName)
  /-- No header is met under a path too long to be used. -/
  paths : ∀ paths, t'.walk c.source = .ok paths → ∀ p ∈ paths, c.isInput p → t'.leads p

section

variable {t t' : FileTree} {o : GenerateOptions} {c : Config} {g : Generated} {out : Address}
  {content : ByteArray}

/-- The same header is prepared after a run that kept its inputs. -/
theorem FileTree.WritesAt.prepared (hw : t.WritesAt t' out content) (ht : t.Sound) (ht' : t'.Sound)
    (hout : t'.canonical? c.output = some out)
    (hconfig : t'.canonical? c.output ≠ t'.canonical? (o.source.manifest.getD configFileName))
    (hkept : KeepsInputs t t' o.source c) (h : prepared t o = .ok (c, g)) :
    prepared t' o = .ok (c, g) := by
  obtain ⟨c₁, hresolve, units, hunits, g₁, hgenerated, hadmitted⟩ := prepared_eq_ok_iff.1 h
  cases eq_of_admitted hadmitted
  obtain ⟨c₀, hload, rfl⟩ := SourceOptions.resolve_eq_ok_iff.1 hresolve
  have hload' : t'.loadConfig o.source.manifest = .ok c₀ :=
    hw.loadConfig (fun hfile => ⟨hkept.config hfile, hout ▸ Ne.symm hconfig⟩) hload
  have hunits' := hw.discovered ht ht' hout (hout ▸ hkept.headers units hunits) hkept.paths hunits
  exact prepared_eq_ok_iff.2 ⟨_, SourceOptions.resolve_eq_ok_iff.2 ⟨c₀, hload', rfl⟩, units,
    hunits', g, hgenerated, hadmitted⟩

/-- After a run that has written its output, elsewhere than over the configuration file, and kept
its inputs, a check passes and the same run changes nothing. -/
theorem generate_stable (ht : t.Sound) (hc : o.source.resolve t = .ok c)
    (hok : ((Command.generate o).run t).result = .ok ())
    (htree : ((Command.generate o).run t).tree = t')
    (hconfig : t'.canonical? c.output ≠ t'.canonical? (o.source.manifest.getD configFileName))
    (hkept : KeepsInputs t t' o.source c) :
    ((Command.check o).run t').result = .ok () ∧ ((Command.generate o).run t').result = .ok () ∧
      ((Command.generate o).run t').tree = t' := by
  obtain ⟨c₁, g, hprepared, hwritten⟩ := exists_of_generateOutput hok
  obtain rfl : c₁ = c := by
    obtain ⟨c₂, hc₂, _, _, _, _, hadmitted⟩ := prepared_eq_ok_iff.1 hprepared
    cases eq_of_admitted hadmitted
    exact Except.ok.inj (hc₂.symm.trans hc)
  rw [show (generateOutput t o).tree = t' from htree] at hwritten
  obtain ⟨ht', ⟨out, hw, hfind⟩, hagain⟩ := writeOutput_ok ht hwritten
  have hout : t'.canonical? c₁.output = some out := canonical?_eq_some_iff.2 ⟨_, hfind⟩
  have hprepared' := hw.prepared ht ht' hout hconfig hkept hprepared
  have hcheck := result_checkOutput hprepared' (readText_of_find hfind)
  rw [if_pos rfl] at hcheck
  exact ⟨hcheck, generateOutput_ok hprepared' hagain⟩

end

/-! ### A tree with one header -/

/-- The configuration file is empty. -/
def shadesTree : FileTree :=
  ((⟨Table.empty, []⟩ : FileTree).put ["c"] (.file ByteArray.empty)).put ["a.h"]
    (.file "//= SCRIPTABLE\n//= SCRIPTABLE ENUM\nenum E { A };\n".toUTF8)

/-- The header as it is found. -/
def shadesUnit : SourceUnit :=
  ⟨"./a.h", "a.h", "//= SCRIPTABLE\n//= SCRIPTABLE ENUM\nenum E { A };\n"⟩

/-- Reads the tree and writes somewhere. -/
def shadesOptions (output : String) : GenerateOptions :=
  ⟨⟨some ".", some output, some "c"⟩, false, false⟩

/-- What the options make of the defaults. -/
def shadesConfig (output : String) : Config := { Config.defaults with source := ".", output }

theorem sound_shadesTree : shadesTree.Sound := by
  have hc : (⟨Table.empty, []⟩ : FileTree).Fits ([] ++ ["c"]) (.file ByteArray.empty) :=
    .vacant rfl rfl (by decide)
  exact (Fits.vacant (a := []) rfl rfl (by decide)).sound (hc.sound (sound_empty []))

theorem find_shadesTree :
    shadesTree.find "c" = .ok (["c"], .file ByteArray.empty) ∧
    shadesTree.find "./a.h" = .ok (["a.h"], .file shadesUnit.text.toUTF8) :=
  ⟨find_of_way (by decide) (.reach rfl (by decide) rfl),
    find_of_way (by decide) (.stay rfl (.inl rfl) (.reach rfl (by decide) rfl))⟩

theorem resolve_shades {t : FileTree} (h : t.find "c" = .ok (["c"], .file ByteArray.empty))
    (output : String) : (shadesOptions output).source.resolve t = .ok (shadesConfig output) := by
  have hempty : t.find "c" = .ok (["c"], .file "".toUTF8) := h
  have hload : t.loadConfig (some "c") = .ok .defaults := by
    rw [loadConfig_of_find hempty]
    rfl
  exact SourceOptions.resolve_eq_ok_iff.2 ⟨_, hload, rfl⟩

/-- A walk of the working directory, where that is the root. -/
theorem walk_here {t : FileTree} (h : t.workingDirectory = []) :
    t.isDirectory "." ∧ t.walk "." = t.walkFrom maxLinks "." [] [(".", [])] := by
  have hresolve : t.resolve .look "." = .ok (.found [] .directory, maxLinks) := by
    refine resolve_eq_ok_iff.2 ⟨by decide, ?_⟩
    rw [h]
    exact .stay rfl (.inl rfl) (.arrived rfl)
  refine ⟨isDirectory_iff.2 ⟨_, find_eq_ok_iff.2 ⟨_, hresolve⟩⟩, ?_⟩
  rw [walk, hresolve]

theorem loadHeader_shades : shadesTree.loadHeader "." "./a.h" = .ok (some shadesUnit) := by
  have hread : shadesTree.read "./a.h" = .ok shadesUnit.text.toUTF8 :=
    read_eq_ok_iff.2 ⟨_, find_shadesTree.2⟩
  rw [loadHeader_of_read hread, if_pos (by decide +kernel)]
  rfl

theorem discovered_shades {output : String} (h : shadesTree.canonical? output = none) :
    discovered shadesTree (shadesConfig output) = .ok [shadesUnit] := by
  obtain ⟨hsource, hwalk⟩ := walk_here (t := shadesTree) rfl
  have hchildren : shadesTree.children [] =
      [("a.h", .file shadesUnit.text.toUTF8), ("c", .file ByteArray.empty)] :=
    children_eq_of_perm (.swap _ _ _) (by decide : ["a.h", "c"].Pairwise (· < ·))
  have hfound : shadesTree.walk "." = .ok ["./a.h", "./c"] := by
    rw [hwalk, walkFrom_eq, hchildren]
    rfl
  refine discovered_eq_ok_iff.2 ⟨hsource, _, hfound, [some shadesUnit], ?_, rfl⟩
  have hcandidate : ∀ p, shadesTree.isCandidate (shadesConfig output) p := isCandidate_of_none h
  have hheaders : ["./a.h", "./c"].filter (shadesConfig output).isHeader = ["./a.h"] := rfl
  rw [List.filter_eq_self.2 fun p _ => hcandidate p, hheaders]
  show (do let u ← shadesTree.loadHeader "." "./a.h"; let us ← pure []; pure (u :: us)) = _
  rw [loadHeader_shades]
  rfl

theorem recognize_shades : recognize shadesUnit =
    ⟨none, none, [⟨"E", none, "a.h", "./a.h", false, ["A"]⟩], []⟩ := by
  decide +kernel

theorem exists_generated_shades (guardName : String) : ∃ g,
    generate [shadesUnit] guardName = .ok g ∧ g.text = g.registry.header guardName ∧
      g.registry.includes = ["a.h"] :=
  ⟨_, by rw [generate, generateWith, List.map_cons, recognize_shades]; rfl, rfl, rfl⟩

theorem exists_prepared_shades {output : String} (h : shadesTree.canonical? output = none) : ∃ g,
    prepared shadesTree (shadesOptions output) = .ok (shadesConfig output, g) ∧
      g.text = g.registry.header (shadesConfig output).guardName ∧
      g.registry.includes = ["a.h"] := by
  obtain ⟨g, hgenerated, htext, hincludes⟩ := exists_generated_shades (shadesConfig output).guardName
  have hprepared : prepared shadesTree (shadesOptions output) = .ok (shadesConfig output, g) :=
    prepared_eq_ok_iff.2 ⟨_, resolve_shades find_shadesTree.1 output, _, discovered_shades h, g,
      hgenerated, rfl⟩
  exact ⟨g, hprepared, htext, hincludes⟩

/-- The tree after a run that wrote a file beside the header. -/
def shadesBeside (content : ByteArray) : FileTree := shadesTree.put ["o.h"] (.file content)

theorem grows_shadesBeside (content : ByteArray) : shadesTree.Grows (shadesBeside content) :=
  (Fits.vacant (a := []) rfl rfl (by decide)).grows

theorem find_shadesBeside (content : ByteArray) :
    (shadesBeside content).find "o.h" = .ok (["o.h"], .file content) :=
  find_of_way (by decide) (.reach rfl (by decide) rfl)

theorem canonical?_shadesBeside (content : ByteArray) :
    (shadesBeside content).canonical? "o.h" = some ["o.h"] ∧
    (shadesBeside content).canonical? "c" = some ["c"] :=
  ⟨canonical?_eq_some_iff.2 ⟨_, find_shadesBeside content⟩,
    (grows_shadesBeside content).canonical? (canonical?_eq_some_iff.2 ⟨_, find_shadesTree.1⟩)⟩

theorem keepsInputs_shadesBeside (content : ByteArray) (h : shadesTree.canonical? "o.h" = none) :
    KeepsInputs shadesTree (shadesBeside content) (shadesOptions "o.h").source
      (shadesConfig "o.h") := by
  have hchildren : (shadesBeside content).children [] =
      [("a.h", .file shadesUnit.text.toUTF8), ("c", .file ByteArray.empty),
        ("o.h", .file content)] :=
    children_eq_of_perm (.swap _ _ _) (by decide : ["a.h", "c", "o.h"].Pairwise (· < ·))
  have hwalk : (shadesBeside content).walk "." = .ok ["./a.h", "./c", "./o.h"] := by
    rw [(walk_here rfl).2, walkFrom_eq, hchildren]
    rfl
  have hleads : ∀ p ∈ ["./a.h", "./c", "./o.h"], (shadesBeside content).leads p := by
    simp only [List.forall_mem_cons, List.not_mem_nil, false_implies, implies_true, and_true]
    refine ⟨?_, ?_, ?_⟩ <;>
      exact leads_iff.2 ⟨_, _, find_of_way (by decide)
        (.stay rfl (.inl rfl) (.reach rfl (by decide) rfl))⟩
  refine ⟨fun units hunits u hu => ?_, fun _ => isFile_iff.2 ⟨_, _, find_shadesTree.1⟩,
    fun paths hpaths p hp _ => ?_⟩
  · rw [discovered_shades h] at hunits
    cases hunits
    cases List.mem_singleton.1 hu
    show shadesTree.canonical? "./a.h" ≠ (shadesBeside content).canonical? "o.h"
    rw [canonical?_eq_some_iff.2 ⟨_, find_shadesTree.2⟩, (canonical?_shadesBeside content).1]
    decide
  · cases hpaths.symm.trans hwalk
    exact hleads p hp

theorem generate_stable_shades :
    ((Command.generate (shadesOptions "o.h")).run shadesTree).result = .ok () ∧
    ((Command.check (shadesOptions "o.h")).run
      ((Command.generate (shadesOptions "o.h")).run shadesTree).tree).result = .ok () := by
  have hnone : shadesTree.canonical? "o.h" = none :=
    canonical?_of_find_eq_error (find_of_missing (by decide) rfl rfl (by decide) rfl)
  obtain ⟨g, hprepared, -⟩ := exists_prepared_shades hnone
  have hresolve : shadesTree.resolve .create "o.h" = .ok (.vacant [] "o.h", maxLinks) :=
    resolve_eq_ok_iff.2 ⟨by decide, .vacant ⟨rfl, by decide, by decide⟩ rfl rfl⟩
  have hwritten : Edit.on (writeOutput "o.h" g.text) shadesTree =
      (.ok (), shadesBeside g.text.toUTF8) := by
    refine writeOutput_eq_ok_iff.2 ⟨shadesTree, rfl, ?_⟩
    rw [on_write, hresolve]
    rfl
  obtain ⟨hok, htree⟩ := generateOutput_ok hprepared hwritten
  rw [← run_generate] at hok htree
  obtain ⟨hout, hconfig⟩ := canonical?_shadesBeside g.text.toUTF8
  rw [htree]
  refine ⟨hok, (generate_stable sound_shadesTree (resolve_shades find_shadesTree.1 "o.h") hok htree
    ?_ (keepsInputs_shadesBeside _ hnone)).1⟩
  show (shadesBeside g.text.toUTF8).canonical? "o.h" ≠ (shadesBeside g.text.toUTF8).canonical? "c"
  rw [hout, hconfig]
  decide

/-! ### The header itself as the output -/

/-- A generated header that includes something is not one that includes nothing. -/
theorem Registry.header_ne_of_includes {r r' : Registry} (guardName : String) (h : r.includes ≠ [])
    (h' : r'.includes = []) : r.header guardName ≠ r'.header guardName := by
  intro heq
  obtain ⟨path, paths, hpaths⟩ := List.exists_cons_of_ne_nil h
  have hlines : ∀ r : Registry, (r.header guardName).toList =
      (guardLines guardName ++ systemIncludes.map fun path => "#include <" ++ path ++ ">").flatMap
          (fun line => line.toList ++ ['\n']) ++
        ((r.includes.map fun path => "#include \"" ++ path ++ "\"") ++
          ["", "namespace generated \x7b"] ++ r.scopeLines ++
          r.routines.flatMap (fun routine => "" :: routine.lines) ++ entryLines r.routines ++
          ["\x7d", "", "#endif // " ++ guardName]).flatMap
          (fun line => line.toList ++ ['\n']) := by
    intro r
    rw [header, toList_unlines, headerLines, includeLines, ← List.flatMap_append]
    simp only [List.append_assoc]
  have htexts := congrArg String.toList heq
  rw [hlines, hlines] at htexts
  have hrest := List.append_cancel_left htexts
  rw [hpaths, h'] at hrest
  simp at hrest

/-- The tree after a run that wrote over the header, on a path through a new directory. -/
def shadesOver (content : ByteArray) : FileTree :=
  (shadesTree.put ["g"] .directory).put ["a.h"] (.file content)

theorem find_shadesOver (content : ByteArray) :
    (shadesOver content).find "c" = .ok (["c"], .file ByteArray.empty) ∧
    (shadesOver content).find "./a.h" = .ok (["a.h"], .file content) ∧
    (shadesOver content).find "g/../a.h" = .ok (["a.h"], .file content) := by
  have hheader : (shadesOver content).Way .look maxLinks [] [.down "a.h"]
      (.found ["a.h"] (.file content)) maxLinks :=
    .reach rfl (by decide) rfl
  exact ⟨find_of_way (by decide) (.reach rfl (by decide) rfl),
    find_of_way (by decide) (.stay rfl (.inl rfl) hheader),
    find_of_way (by decide) (.enter rfl (by decide) rfl (.up rfl hheader))⟩

theorem writeOutput_shadesOver (text : String) :
    Edit.on (writeOutput "g/../a.h" text) shadesTree = (.ok (), shadesOver text.toUTF8) := by
  let made := shadesTree.put ["g"] .directory
  have hg : ∀ {steps : List Step} {goal : Goal},
      made.Way .look maxLinks [] steps goal maxLinks →
        made.Way .look maxLinks [] (.down "g" :: .up :: steps) goal maxLinks :=
    fun hway => .enter rfl (by decide) rfl (.up rfl hway)
  have hmissing : Edit.on (makeDirectory "g/..") shadesTree = (.error .notFound, shadesTree) := by
    have hresolve : shadesTree.resolve .lookAtLink "g/.." = .error .notFound :=
      Eq.trans (resolve_of_missing (by decide) rfl ⟨rfl, by decide, by decide⟩ rfl) rfl
    rw [makeDirectory, on_place, show dropSlashes "g/.." = "g/.." by decide, hresolve]
  have hmade : Edit.on (makeChain ["g"]) shadesTree = (.ok (), made) := by
    have hresolve : shadesTree.resolve .lookAtLink "g" = .ok (.vacant [] "g", maxLinks) :=
      resolve_eq_ok_iff.2 ⟨by decide, .vacant ⟨rfl, by decide, by decide⟩ rfl rfl⟩
    rw [makeChain, Edit.on_tryCatch, makeDirectory, on_place, show dropSlashes "g" = "g" by decide,
      hresolve]
    rfl
  have habove : made.isDirectory "g/.." :=
    isDirectory_iff.2 ⟨[], find_of_way (by decide) (hg (.arrived rfl))⟩
  refine writeOutput_eq_ok_iff.2 ⟨made, ?_, ?_⟩
  · rw [show parentsOf "g/../a.h" = ["g/..", "g"] by decide]
    exact makeChain_of_above hmissing hmade habove (by decide)
  · have hfound : made.find "g/../a.h" = .ok (["a.h"], .file shadesUnit.text.toUTF8) :=
      find_of_way (by decide) (hg (.reach rfl (by decide) rfl))
    obtain ⟨left, hresolve⟩ := resolve_create_of_find hfound
    rw [on_write, hresolve]
    rfl

/-- A later scan passes over the header. -/
theorem discovered_shadesOver (content : ByteArray) :
    discovered (shadesOver content) (shadesConfig "g/../a.h") = .ok [] := by
  obtain ⟨-, hheader, hout⟩ := find_shadesOver content
  have hchildren : (shadesOver content).children [] =
      [("a.h", .file content), ("c", .file ByteArray.empty), ("g", .directory)] :=
    children_eq_of_perm (.swap _ _ _) (by decide : ["a.h", "c", "g"].Pairwise (· < ·))
  have hnew : (shadesOver content).children ["g"] = [] := children_eq_of_perm (.refl _) .nil
  have hbelow : ∀ around, (shadesOver content).walkFrom maxLinks "./g" ["g"] around = .ok [] := by
    intro around
    rw [walkFrom_eq, hnew]
    rfl
  obtain ⟨hsource, hwalk⟩ := walk_here (t := shadesOver content) rfl
  have hfound : (shadesOver content).walk "." = .ok ["./a.h", "./c"] := by
    have hjoin : Path.join "." "g" = "./g" := by decide
    rw [hwalk, walkFrom_eq, hchildren, List.mapM_cons, List.mapM_cons, List.mapM_cons, visit, visit,
      visit]
    dsimp only [List.nil_append]
    rw [hjoin, hbelow]
    rfl
  refine discovered_eq_ok_iff.2 ⟨hsource, ["./a.h", "./c"], hfound, [], ?_, rfl⟩
  have hnone : (["./a.h", "./c"].filter
      ((shadesOver content).isCandidate (shadesConfig "g/../a.h"))).filter
      (shadesConfig "g/../a.h").isHeader = [] := by
    have hpassed : (shadesOver content).isCandidate (shadesConfig "g/../a.h") "./a.h" = false :=
      isCandidate_of_eq (canonical?_eq_some_iff.2 ⟨_, hout⟩) (canonical?_eq_some_iff.2 ⟨_, hheader⟩)
    rw [List.filter_cons_of_neg (by simp [hpassed])]
    refine List.filter_eq_nil_iff.2 fun p hp => ?_
    cases List.mem_singleton.1 (List.mem_filter.1 hp).1
    decide
  rw [hnone]
  rfl

/-- The first run reads the header and writes over it, so that a check finds nothing to generate and
the output out of date. -/
theorem generate_unstable_shades :
    shadesTree.Sound ∧
    (shadesOptions "g/../a.h").source.resolve shadesTree = .ok (shadesConfig "g/../a.h") ∧
    ((Command.generate (shadesOptions "g/../a.h")).run shadesTree).result = .ok () ∧
    (((Command.generate (shadesOptions "g/../a.h")).run shadesTree).tree.canonical? "g/../a.h" ≠
      ((Command.generate (shadesOptions "g/../a.h")).run shadesTree).tree.canonical? "c") ∧
    ((Command.check (shadesOptions "g/../a.h")).run
      ((Command.generate (shadesOptions "g/../a.h")).run shadesTree).tree).result ≠ .ok () := by
  have hnone : shadesTree.canonical? "g/../a.h" = none :=
    canonical?_of_find_eq_error (find_of_missing (by decide) rfl rfl (by decide) rfl)
  obtain ⟨g, hprepared, htext, hincludes⟩ := exists_prepared_shades hnone
  obtain ⟨hok, htree⟩ := generateOutput_ok hprepared (writeOutput_shadesOver g.text)
  obtain ⟨hconfig, -, hout⟩ := find_shadesOver g.text.toUTF8
  rw [← run_generate] at hok htree
  rw [htree]
  refine ⟨sound_shadesTree, resolve_shades find_shadesTree.1 _, hok, ?_, ?_⟩
  · rw [canonical?_eq_some_iff.2 ⟨_, hout⟩, canonical?_eq_some_iff.2 ⟨_, hconfig⟩]
    decide
  · obtain ⟨g', hgenerated, hnothing⟩ : ∃ g', generate [] (shadesConfig "g/../a.h").guardName =
        .ok g' ∧ g'.text = Registry.empty.header (shadesConfig "g/../a.h").guardName :=
      ⟨_, rfl, rfl⟩
    have hprepared' : prepared (shadesOver g.text.toUTF8) (shadesOptions "g/../a.h") =
        .ok (shadesConfig "g/../a.h", g') :=
      prepared_eq_ok_iff.2 ⟨_, resolve_shades hconfig _, _, discovered_shadesOver _, g', hgenerated,
        rfl⟩
    have hne : g.text ≠ g'.text := by
      rw [htext, hnothing]
      exact Registry.header_ne_of_includes _ (by rw [hincludes]; exact List.cons_ne_nil _ _) rfl
    have hcheck := result_checkOutput hprepared' (readText_of_find hout)
    rw [if_neg hne] at hcheck
    show (checkOutput _ _).result.1 ≠ _
    rw [hcheck]
    exact fun h => by cases h

end ChaiBind
