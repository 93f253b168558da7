import ChaiBind.Proofs.FileTree.Edits
import ChaiBind.Proofs.FileTree.Parents
import ChaiBind.Run.Write

/-!
# What runs return

What a session says has no influence on what it returns (`Session.Returns`), so that a run can be
followed by its results alone: `discovered`, `prepared` and `checked` are what the sessions of the
same verbs return.

* `prepared_eq_ok_iff`: a header is prepared if the headers that are discovered make one.
* `generateOutput_cases`: a run fails before it writes, or it writes what it has prepared.
* `writeOutput_ok`: what writing does, and that writing again does nothing.
-/

namespace ChaiBind

namespace Session

variable {α β : Type}

/-- What a session returns or why it fails, whatever was said before it. -/
def Returns (s : Session α) (r : Except Failure α) : Prop :=
  ∀ said : Transcript, (s.run.run said).1 = r

theorem Returns.result {s : Session α} {r : Except Failure α} (h : s.Returns r) :
    s.result.1 = r := h _

theorem returns_say (text : String) : Returns (say text) (.ok ()) := fun _ => rfl

theorem returns_pure (x : α) : Returns (pure x : Session α) (pure x) := fun _ => rfl

theorem returns_liftM (r : Except Failure α) : Returns (liftM r : Session α) r := by
  intro said
  cases r <;> rfl

theorem Returns.bind {s : Session α} {next : α → Session β} {r : Except Failure α}
    {r' : α → Except Failure β} (h : s.Returns r) (hnext : ∀ x, (next x).Returns (r' x)) :
    Returns (s >>= next) (r >>= r') := by
  intro said
  have hs := h said
  show (match s.run.run said with
    | (r, said) => (ExceptT.bindCont next r : StateM Transcript (Except Failure β)) said).1 = _
  rcases hrun : s.run.run said with ⟨x | x, said'⟩
  · rw [hrun] at hs
    cases hs
    rfl
  · rw [hrun] at hs
    cases hs
    exact hnext x said'

/-- What is said first makes no difference. -/
theorem Returns.after_say {s : Session α} {r : Except Failure α} (h : s.Returns r) (text : String) :
    Returns (do say text; s) r :=
  (returns_say text).bind fun _ => h

end Session

/-! ## Preparing -/

/-- The headers of a configuration that opt in. -/
def discovered (t : FileTree) (c : Config) : Except Failure (List SourceUnit) := do
  let paths ← t.scan c
  t.loadHeaders c c.source paths

/-- What a run returns for a generated header: a failure if there are warnings and they are
denied. -/
def admitted (c : Config) (denyWarnings : Bool) (g : Generated) :
    Except Failure (Config × Generated) :=
  if denyWarnings && Diagnostic.hasWarnings g.diagnostics then
    .error (.warnings (Diagnostic.warningCount g.diagnostics))
  else .ok (c, g)

/-- The configuration and the generated header of some options. -/
def prepared (t : FileTree) (o : GenerateOptions) : Except Failure (Config × Generated) := do
  let c ← o.source.resolve t
  let units ← discovered t c
  let g ← (generate units c.guardName).mapError .cycle
  admitted c o.denyWarnings g

theorem returns_discover (t : FileTree) (c : Config) : (discover t c).Returns (discovered t c) := by
  refine Session.Returns.after_say ?_ _
  refine (Session.returns_liftM _).bind fun paths => ?_
  have hloaded := (Session.returns_liftM (t.loadHeaders c c.source paths)).bind fun units =>
    (Session.returns_pure units).after_say (Console.statusLine "Found"
      (Console.counted units.length "scriptable header" "scriptable headers" ++ " in " ++
        Console.counted paths.length "file" "files"))
  rwa [bind_pure] at hloaded

theorem returns_prepare (t : FileTree) (o : GenerateOptions) :
    (prepare t o).Returns (prepared t o) := by
  refine (Session.returns_liftM _).bind fun c => ?_
  have hproduce : (produce t c).Returns (discovered t c >>= fun units =>
      (generate units c.guardName).mapError .cycle) :=
    (returns_discover t c).bind fun units => Session.returns_liftM _
  rw [← bind_assoc]
  refine hproduce.bind fun g => Session.Returns.after_say ?_ _
  intro said
  unfold admitted
  split <;> rfl

/-! ## Checking -/

/-- What checking the generated header of some options returns. -/
def checked (t : FileTree) (o : GenerateOptions) : Except Failure Unit := do
  let (c, g) ← prepared t o
  match t.readText c.output with
  | .ok current => if current = g.text then .ok () else .error (.outputStale (t.display c.output))
  | .error .notFound => .error (.outputMissing (t.display c.output))
  | .error e => .error (.file .readOutput c.output e)

theorem returns_checkOutput (t : FileTree) (o : GenerateOptions) :
    (checkOutput t o).Returns (checked t o) := by
  refine (returns_prepare t o).bind fun p => ?_
  obtain ⟨c, g⟩ := p
  intro said
  dsimp only
  cases t.readText c.output with
  | ok current =>
    by_cases hcurrent : current = g.text
    · simp only [if_pos hcurrent, if_neg (not_not.2 hcurrent)]
      rfl
    · simp only [if_neg hcurrent, if_pos hcurrent]
      rfl
  | error e => cases e <;> rfl

/-! ## Writing -/

/-- The directories that are made before a file is written, the innermost first. -/
def parentsOf (path : String) : List String :=
  match Path.parent? path.toList with
  | none => []
  | some parent => FileTree.chainOf (parent.length + 1) parent

theorem adapt_eq_ok_iff {f : FileError → Failure} {m : Edit Unit} {t t' : FileTree} :
    Edit.on (ExceptT.adapt f m) t = (.ok (), t') ↔ Edit.on m t = (.ok (), t') := by
  rw [Edit.on_adapt]
  rcases Edit.on m t with ⟨e | ⟨⟩, t₁⟩ <;> simp [Except.mapError]

theorem writeOutput_eq_ok_iff {path text : String} {t t' : FileTree} :
    Edit.on (writeOutput path text) t = (.ok (), t') ↔
      ∃ t₁, Edit.on (FileTree.makeChain (parentsOf path)) t = (.ok (), t₁) ∧
        Edit.on (FileTree.write path text.toUTF8) t₁ = (.ok (), t') := by
  have hnothing : ∀ {t t₁ : FileTree}, Edit.on (FileTree.makeChain []) t = (.ok (), t₁) ↔ t = t₁ := by
    intro t t₁
    show (Except.ok (), t) = (Except.ok (), t₁) ↔ _
    simp
  unfold writeOutput parentsOf
  rcases Path.parent? path.toList with - | parent
  · simp only [adapt_eq_ok_iff, hnothing, exists_eq_left']
  · cases parent with
    | nil =>
      show _ ↔ ∃ t₁, Edit.on (FileTree.makeChain []) t = _ ∧ _
      simp only [adapt_eq_ok_iff, hnothing, exists_eq_left']
    | cons c cs =>
      have hmake : FileTree.makeDirectories (String.ofList (c :: cs)) =
          FileTree.makeChain (FileTree.chainOf ((c :: cs).length + 1) (c :: cs)) := by
        rw [FileTree.makeDirectories, String.toList_ofList]
      refine Edit.on_bind_eq_ok_iff.trans ⟨?_, ?_⟩
      · rintro ⟨⟨⟩, t₁, hmade, hwritten⟩
        rw [hmake] at hmade
        exact ⟨t₁, adapt_eq_ok_iff.1 hmade, adapt_eq_ok_iff.1 hwritten⟩
      · rintro ⟨t₁, hmade, hwritten⟩
        rw [← hmake] at hmade
        exact ⟨(), t₁, adapt_eq_ok_iff.2 hmade, adapt_eq_ok_iff.2 hwritten⟩

theorem dropSlashes_of_parentsOf {path parent : String} {above : List String}
    (h : parentsOf path = parent :: above) : FileTree.dropSlashes parent = parent := by
  unfold parentsOf at h
  split at h
  · cases h
  · rename_i p hp
    rw [FileTree.chainOf] at h
    split at h
    · cases h
    · rename_i hne
      obtain ⟨rfl, -⟩ := List.cons.inj h
      exact FileTree.dropSlashes_of_parent? hp hne

/-- Writing puts a file at the place to which the path then leads, beside directories that may be
new, and writing it again changes nothing. -/
theorem writeOutput_ok {path text : String} {t t' : FileTree} (ht : t.Sound)
    (h : Edit.on (writeOutput path text) t = (.ok (), t')) :
    t'.Sound ∧ (∃ out, t.WritesAt t' out text.toUTF8 ∧
        t'.find path = .ok (out, .file text.toUTF8)) ∧
      Edit.on (writeOutput path text) t' = (.ok (), t') := by
  obtain ⟨t₁, hmade, hwritten⟩ := writeOutput_eq_ok_iff.1 h
  have hadds := FileTree.addsDirectories_makeChain (parentsOf path) t
  have ht₁ := FileTree.sound_makeChain (parentsOf path) ht
  rw [hmade] at hadds ht₁
  obtain ⟨out, left, hfits, rfl, hresolve⟩ := FileTree.exists_of_write ht₁ hwritten
  obtain ⟨husable, hway⟩ := FileTree.resolve_eq_ok_iff.1 hresolve
  refine ⟨hfits.sound ht₁, ⟨out, hadds.writesAt hfits, FileTree.find_eq_ok_iff.2
    ⟨left, FileTree.resolve_eq_ok_iff.2 ⟨husable, hway.look⟩⟩⟩, writeOutput_eq_ok_iff.2
    ⟨_, ?_, FileTree.write_of_found hfits.ne_nil hresolve⟩⟩
  cases hparents : parentsOf path with
  | nil => rfl
  | cons parent above =>
    have hparent := dropSlashes_of_parentsOf hparents
    rw [hparents] at hmade
    exact FileTree.makeChain_of_isDirectory
      (hfits.grows.isDirectory (FileTree.isDirectory_of_makeChain hparent hmade)) hparent

/-! ## Generating -/

variable {t t' : FileTree} {o : GenerateOptions} {c : Config} {g : Generated}

/-- A run fails as preparing a header does and leaves the tree as it is, or it prepares a header and
writes it. -/
theorem generateOutput_cases (t : FileTree) (o : GenerateOptions) :
    (∃ f, prepared t o = .error f ∧ (generateOutput t o).result = .error f ∧
      (generateOutput t o).tree = t) ∨
    (∃ c g, prepared t o = .ok (c, g) ∧ Edit.on (writeOutput c.output g.text) t =
      ((generateOutput t o).result, (generateOutput t o).tree)) := by
  have hprepare := (returns_prepare t o).result
  unfold generateOutput
  rcases hp : (prepare t o).result with ⟨f | ⟨c, g⟩, said⟩ <;> rw [hp] at hprepare
  · exact .inl ⟨f, hprepare.symm, rfl, rfl⟩
  · refine .inr ⟨c, g, hprepare.symm, ?_⟩
    show (writeOutput c.output g.text).run.run t = _
    dsimp only
    rcases (writeOutput c.output g.text).run.run t with ⟨f | ⟨⟩, t'⟩ <;> rfl

theorem exists_of_generateOutput (h : (generateOutput t o).result = .ok ()) :
    ∃ c g, prepared t o = .ok (c, g) ∧
      Edit.on (writeOutput c.output g.text) t = (.ok (), (generateOutput t o).tree) := by
  rcases generateOutput_cases t o with ⟨f, -, hresult, -⟩ | ⟨c, g, hp, hw⟩
  · rw [h] at hresult
    cases hresult
  · rw [h] at hw
    exact ⟨c, g, hp, hw⟩

theorem generateOutput_ok (hp : prepared t o = .ok (c, g))
    (hw : Edit.on (writeOutput c.output g.text) t = (.ok (), t')) :
    (generateOutput t o).result = .ok () ∧ (generateOutput t o).tree = t' := by
  rcases generateOutput_cases t o with ⟨f, hp', -, -⟩ | ⟨c', g', hp', hw'⟩
  · cases hp.symm.trans hp'
  · cases hp.symm.trans hp'
    have hsame := hw'.symm.trans hw
    exact ⟨congrArg Prod.fst hsame, congrArg Prod.snd hsame⟩

theorem bind_eq_ok_iff {ε α β : Type} {x : Except ε α} {f : α → Except ε β} {y : β} :
    (x >>= f) = .ok y ↔ ∃ a, x = .ok a ∧ f a = .ok y := by
  cases x with
  | error e => simp [bind, Except.bind]
  | ok a => simp [bind, Except.bind]

theorem mapError_eq_ok_iff {ε ε' α : Type} {x : Except ε α} {f : ε → ε'} {y : α} :
    x.mapError f = .ok y ↔ x = .ok y := by
  cases x <;> simp [Except.mapError]

/-- A header is prepared if the headers that are discovered make one that is admitted. -/
theorem prepared_eq_ok_iff {p : Config × Generated} : prepared t o = .ok p ↔
    ∃ c, o.source.resolve t = .ok c ∧ ∃ units, discovered t c = .ok units ∧
      ∃ g, generate units c.guardName = .ok g ∧ admitted c o.denyWarnings g = .ok p := by
  simp only [prepared, bind_eq_ok_iff, mapError_eq_ok_iff]

theorem SourceOptions.resolve_eq_ok_iff {o : SourceOptions} {t : FileTree} {c : Config} :
    o.resolve t = .ok c ↔ ∃ c₀, t.loadConfig o.manifest = .ok c₀ ∧
      { c₀ with source := o.source.getD c₀.source, output := o.output.getD c₀.output } = c := by
  rw [resolve, bind_eq_ok_iff]
  simp only [pure, Except.pure, Except.ok.injEq]

theorem eq_of_admitted {denyWarnings : Bool} {p : Config × Generated}
    (h : admitted c denyWarnings g = .ok p) : p = (c, g) := by
  unfold admitted at h
  split at h
  · cases h
  · exact (Except.ok.inj h).symm

/-! ## Commands -/

theorem run_generate (t : FileTree) (o : GenerateOptions) :
    (Command.generate o).run t = generateOutput t o := rfl

theorem FileTree.readText_of_find {path text : String} {out : Address}
    (h : t.find path = .ok (out, .file text.toUTF8)) : t.readText path = .ok text := by
  have hvalid : String.fromUTF8? text.toUTF8 = some text := dif_pos text.isValidUTF8
  rw [readText, read_eq_ok_iff.2 ⟨out, h⟩]
  simp only [bind, Except.bind, hvalid]
  rfl

/-- A check compares the output with what is prepared. -/
theorem result_checkOutput {current : String} (h : prepared t o = .ok (c, g))
    (hread : t.readText c.output = .ok current) : (checkOutput t o).result.1 =
      if current = g.text then .ok () else .error (.outputStale (t.display c.output)) := by
  rw [(returns_checkOutput t o).result, checked, h]
  simp only [bind, Except.bind, hread]

end ChaiBind
