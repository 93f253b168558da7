import ChaiBind.Proofs.Binding.GeneratedLines
import ChaiBind.Proofs.Discovery.IncludePaths
import ChaiBind.Proofs.Run.Inputs
import ChaiBind.Proofs.Text.ContinuedLiterals

/-!
# Old outputs

A generated header that stays in the source tree is read by later runs, and should not opt in there.
It does not, unless a header that it was made from holds a sentinel inside a literal, behind a
backslash at the end of a line, or is included under a path that holds one
(`isScriptable_generated`). Of headers that a run finds itself only the first can be true
(`loadHeader_of_prepared`).
-/

namespace ChaiBind

open Text Header

/-! ## Configurations -/

theorem newline_notMem_of_isAsciiIdentifier {cs : List Char} (h : isAsciiIdentifier cs) :
    '\n' ∉ cs := by
  cases cs with
  | nil => exact List.not_mem_nil
  | cons c cs =>
    rw [isAsciiIdentifier, Bool.and_eq_true, List.all_eq_true] at h
    rintro (_ | ⟨_, hmem⟩)
    · exact absurd h.1 (by decide)
    · exact absurd (h.2 _ hmem) (by decide)

namespace Config

theorem check_eq_ok_iff {c c' : Config} : check c = .ok c' ↔
    c.extensions.isEmpty = false ∧ isAsciiIdentifier c.guardName.toList ∧ c = c' := by
  unfold check
  cases c.extensions.isEmpty <;> cases isAsciiIdentifier c.guardName.toList <;> simp

theorem check_defaults : check defaults = .ok defaults :=
  check_eq_ok_iff.2 ⟨rfl, by decide, rfl⟩

/-- What is read is a configuration that passes its check, as the defaults do. -/
theorem check_of_ofText {text : String} {c : Config} (h : ofText text = .ok c) :
    check c = .ok c := by
  unfold ofText at h
  split at h
  · obtain rfl := Except.ok.inj h
    exact check_defaults
  · split at h
    · cases h
    · obtain rfl := Except.ok.inj h
      exact check_defaults
    · rename_i node _
      change (ofNode node >>= check) = .ok c at h
      obtain ⟨c₀, -, hcheck⟩ := bind_eq_ok_iff.1 h
      obtain ⟨-, -, rfl⟩ := check_eq_ok_iff.1 hcheck
      exact hcheck

theorem check_of_loadConfig {t : FileTree} {manifest : Option String} {c : Config}
    (h : t.loadConfig manifest = .ok c) : check c = .ok c := by
  have hfrom : ∀ {path : String}, t.loadConfigFrom path = .ok c → check c = .ok c := by
    intro path h
    unfold FileTree.loadConfigFrom at h
    split at h
    · cases h
    · exact check_of_ofText (mapError_eq_ok_iff.1 h)
  unfold FileTree.loadConfig at h
  split at h
  · split at h
    · exact hfrom h
    · cases h
  · split at h
    · exact hfrom h
    · obtain rfl := Except.ok.inj h
      exact check_defaults

/-- The guard of a configuration that passes its check is an identifier. -/
theorem oneLine_guardName {c : Config} (h : check c = .ok c) : Text.OneLine c.guardName :=
  newline_notMem_of_isAsciiIdentifier (check_eq_ok_iff.1 h).2.1

end Config

/-! ## Sentinels in a header -/

/-- A line of a text is a sentinel, and the line before it ends in a backslash. -/
def ContinuesSentinel (cs : List Char) : Prop :=
  ∃ line, isSentinel line ∧ '\\' :: '\n' :: (line ++ ['\n']) <:+: cs

/-- Only from inside a literal does a sentinel get into a text without comments. -/
theorem continuesSentinel_of_stripComments {cs : List Char} (h : HidesSentinel (stripComments cs)) :
    ContinuesSentinel cs := by
  obtain ⟨line, hline, hinside⟩ := h
  refine ⟨line, hline, ?_⟩
  have hforeign : ∀ d, d ∉ "//=SCRIPTABLE \t\r".toList → ∀ c ∈ line, c ≠ d :=
    fun d hd c hc heq => hd (heq ▸ mem_of_isSentinel hline hc)
  have hchars : ∀ c ∈ line, c ≠ '\\' ∧ c ≠ '"' ∧ c ≠ '\'' ∧ c ≠ '\n' := fun c hc =>
    ⟨hforeign _ (by decide) c hc, hforeign _ (by decide) c hc, hforeign _ (by decide) c hc,
      hforeign _ (by decide) c hc⟩
  obtain ⟨a, b, c, ending, hspaces, -, rfl⟩ := exists_of_isSentinel hline
  have ha : ∀ x ∈ a, isSpaceOrTab x := fun x hx => hspaces x (List.mem_append_left _ hx)
  exact isInfix_of_stripComments ha hchars hinside

/-- A value that hides a sentinel comes from a literal that goes on over a newline. -/
theorem continuesSentinel_of_mem_values {u : SourceUnit} {e : Enumeration}
    (he : e ∈ (recognize u).enums) {value : String} (hvalue : value ∈ e.values)
    (h : HidesSentinel value.toList) : ContinuesSentinel u.text.toList := by
  obtain ⟨body, hbody, hstripped⟩ := exists_of_mem_values he hvalue
  obtain ⟨line, hline, hinside⟩ := continuesSentinel_of_stripComments (h.mono hstripped)
  exact ⟨line, hline, hinside.trans hbody⟩

theorem exists_includePath_of_mem_includes {units : List SourceUnit} {r : Registry}
    {ds : List Diagnostic} (h : (Draft.ofList (units.map recognize)).build = .ok (r, ds))
    {path : String} (hpath : path ∈ r.includes) : ∃ u ∈ units, u.includePath = path := by
  rcases Registry.mem_includes.1 hpath with ⟨c, hc, rfl⟩ | ⟨e, he, rfl⟩
  · obtain ⟨u, hu, c₀, ancestors, hclass, rfl⟩ := exists_class?_of_mem_classes h hc
    exact ⟨u, hu, (scope_of_class? hclass).2.symm⟩
  · obtain ⟨u, hu, henum⟩ := exists_mem_enums_of_mem_enums h he
    exact ⟨u, hu, (scope_of_mem_enums henum).2.symm⟩

/-- No path under which a header is found hides a sentinel. -/
theorem not_hidesSentinel_includeText (root path : String) :
    ¬ HidesSentinel (Path.includeText root path).toList := by
  rintro ⟨line, hline, hinside⟩
  obtain ⟨a, b, c, ending, -, -, rfl⟩ := exists_of_isSentinel hline
  refine Path.not_slashes_isInfix_includeText root path (List.IsInfix.trans ?_ hinside)
  exact ⟨'\n' :: a, '=' :: (b ++ ("SCRIPTABLE".toList ++ (c ++ ending)) ++ ['\n']), by simp⟩

/-! ## The generated header -/

theorem isScriptable_text_iff {units : List SourceUnit} {guardName : String} {g : Generated}
    (hguard : Text.OneLine guardName) (hg : generate units guardName = .ok g) :
    isScriptable g.text.toList ↔
      (∃ path ∈ g.registry.includes, HidesSentinel path.toList) ∨
        ∃ e ∈ g.registry.enums.values, ∃ value ∈ e.values, HidesSentinel value.toList := by
  obtain ⟨hbuild, htext⟩ := generate_eq_ok_iff.1 hg
  rw [htext]
  exact (oneLine_of_build hbuild).isScriptable_header hguard

/-- Where the sentinel of a generated header comes from. -/
theorem exists_sentinel_of_isScriptable {units : List SourceUnit} {guardName : String}
    {g : Generated} (hguard : Text.OneLine guardName) (hg : generate units guardName = .ok g)
    (h : isScriptable g.text.toList) :
    ∃ u ∈ units, HidesSentinel u.includePath.toList ∨ ContinuesSentinel u.text.toList := by
  obtain ⟨hbuild, -⟩ := generate_eq_ok_iff.1 hg
  rcases (isScriptable_text_iff hguard hg).1 h with ⟨path, hpath, h⟩ | ⟨e, he, value, hvalue, h⟩
  · obtain ⟨u, hu, rfl⟩ := exists_includePath_of_mem_includes hbuild hpath
    exact ⟨u, hu, .inl h⟩
  · obtain ⟨u, hu, henum⟩ := exists_mem_enums_of_mem_enums hbuild he
    exact ⟨u, hu, .inr (continuesSentinel_of_mem_values henum hvalue h)⟩

theorem FileTree.loadHeader_eq_none_iff {t : FileTree} {path text : String}
    (h : t.read path = .ok text.toUTF8) (root : String) :
    t.loadHeader root path = .ok none ↔ ¬ isScriptable text.toList := by
  rw [loadHeader_of_read h]
  cases isScriptable text.toList <;> simp

/-- A generated header opts in if an included path or a value of an enumeration hides a sentinel,
for which one of the headers has to be included under such a path or hold a sentinel in a literal
that goes on over a newline. Where it does not opt in, it is passed over under whatever path it is
met. -/
theorem isScriptable_generated {text : String} {c : Config} {units : List SourceUnit}
    {g : Generated} (hc : Config.ofText text = .ok c) (hg : generate units c.guardName = .ok g) :
    (isScriptable g.text.toList ↔
      (∃ path ∈ g.registry.includes, HidesSentinel path.toList) ∨
        ∃ e ∈ g.registry.enums.values, ∃ value ∈ e.values, HidesSentinel value.toList) ∧
    (isScriptable g.text.toList →
      ∃ u ∈ units, HidesSentinel u.includePath.toList ∨ ContinuesSentinel u.text.toList) ∧
    ∀ (t : FileTree) (root path : String), t.read path = .ok g.text.toUTF8 →
      (t.loadHeader root path = .ok none ↔ ¬ isScriptable g.text.toList) := by
  have hguard := Config.oneLine_guardName (Config.check_of_ofText hc)
  exact ⟨isScriptable_text_iff hguard hg, exists_sentinel_of_isScriptable hguard hg,
    fun _ root _ hread => FileTree.loadHeader_eq_none_iff hread root⟩

/-- An enumeration with a value that is deprecated for some reason. -/
def modeUnit (reason : String) : SourceUnit :=
  ⟨"src/a.h", "a.h", "//= SCRIPTABLE\n//= SCRIPTABLE ENUM\nenum Mode \x7b OLD [[deprecated(R\"(" ++
    reason ++ ")\")]], NEW \x7d;\n"⟩

theorem recognize_modeUnit : recognize (modeUnit "use NEW") = ⟨none, none, [⟨"Mode", none, "a.h",
    "src/a.h", false, ["OLD [[deprecated(R\"(use NEW)\")]]", "NEW"]⟩], []⟩ := by
  decide +kernel

theorem isScriptable_generated_mode :
    ∃ g, Config.ofText "" = .ok .defaults ∧
      generate [modeUnit "use NEW"] Config.defaults.guardName = .ok g ∧
      ¬ isScriptable g.text.toList := by
  obtain ⟨g, hg⟩ : ∃ g, generate [modeUnit "use NEW"] Config.defaults.guardName = .ok g :=
    ⟨_, by rw [generate, generateWith, List.map_cons, recognize_modeUnit]; rfl⟩
  have hc : Config.ofText "" = .ok .defaults := rfl
  refine ⟨g, hc, hg, fun h => ?_⟩
  obtain ⟨u, hu, hsentinel⟩ := (isScriptable_generated hc hg).2.1 h
  obtain rfl := List.mem_singleton.1 hu
  rcases hsentinel with hpath | ⟨line, -, htext⟩
  · exact not_hidesSentinel_of_count (by decide) hpath
  · have hbackslash : '\\' ∉ (modeUnit "use NEW").text.toList := by decide
    exact hbackslash (htext.subset List.mem_cons_self)

theorem recognize_modeUnit_continued : recognize (modeUnit "use \\\n//= SCRIPTABLE\n") =
    ⟨none, none, [⟨"Mode", none, "a.h", "src/a.h", false,
      ["OLD [[deprecated(R\"(use \\\n//= SCRIPTABLE\n)\")]]", "NEW"]⟩], []⟩ := by
  decide +kernel

/-- A reason of three lines, the second of which is a sentinel, is copied into the output. -/
theorem exists_isScriptable_generated : ∃ (text : String) (c : Config) (units : List SourceUnit)
    (g : Generated), Config.ofText text = .ok c ∧ generate units c.guardName = .ok g ∧
      isScriptable g.text.toList := by
  obtain ⟨g, hg, henums⟩ : ∃ g, generate [modeUnit "use \\\n//= SCRIPTABLE\n"]
      Config.defaults.guardName = .ok g ∧ g.registry.enums.values = [⟨"Mode", none, "a.h",
        "src/a.h", false, ["OLD [[deprecated(R\"(use \\\n//= SCRIPTABLE\n)\")]]", "NEW"]⟩] :=
    ⟨_, by rw [generate, generateWith, List.map_cons, recognize_modeUnit_continued]; rfl, rfl⟩
  refine ⟨"", .defaults, _, g, rfl, hg, ?_⟩
  rw [isScriptable_text_iff (oneLine_ofList.2 (by decide)) hg, henums]
  refine .inr ⟨_, List.mem_singleton_self _, _, List.mem_cons_self, "//= SCRIPTABLE".toList,
    by decide, "OLD [[deprecated(R\"(use \\".toList, ")\")]]".toList, by decide⟩

/-! ## Runs -/

/-- The header that a run has prepared is passed over by every run, under whatever path it is met,
unless one of the headers that the first one read holds a sentinel in a literal that goes on over a
newline. -/
theorem loadHeader_of_prepared {t t' : FileTree} {o : GenerateOptions} {c : Config} {g : Generated}
    (h : prepared t o = .ok (c, g))
    (hheaders : ∀ units, discovered t c = .ok units → ∀ u ∈ units,
      ¬ ContinuesSentinel u.text.toList)
    {path : String} (hread : t'.read path = .ok g.text.toUTF8) (root : String) :
    t'.loadHeader root path = .ok none := by
  obtain ⟨c₁, hresolve, units, hunits, g₁, hgenerated, hadmitted⟩ := prepared_eq_ok_iff.1 h
  cases eq_of_admitted hadmitted
  obtain ⟨c₀, hload, rfl⟩ := SourceOptions.resolve_eq_ok_iff.1 hresolve
  have hguard := Config.oneLine_guardName (Config.check_of_loadConfig hload)
  rw [FileTree.loadHeader_eq_none_iff hread]
  intro hscriptable
  obtain ⟨u, hu, hpath | htext⟩ := exists_sentinel_of_isScriptable hguard hgenerated hscriptable
  · obtain ⟨path, hunit⟩ := exists_loadHeader_of_discovered hunits hu
    have hinclude := ((FileTree.of_loadHeader hunit).2 u rfl).2
    exact not_hidesSentinel_includeText _ path (hinclude ▸ hpath)
  · exact hheaders units hunits u hu htext

end ChaiBind
