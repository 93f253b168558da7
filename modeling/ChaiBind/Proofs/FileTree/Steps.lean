import ChaiBind.Proofs.FileTree.Growth
import ChaiBind.Proofs.Text.Pieces

/-!
# Steps of a path

What stands between the slashes of a path is what can be stepped down to, up or not at all, so that
the steps of longer paths are put together from those of shorter ones.

* `named_stepsOf`: an entry can have any name that a path steps down to, if it is not too long.
* `stepsOf_join`: the steps of a name in a directory, whatever slash the directory ends in.
* `stepsOf_ne_nil`: a relative path has steps.
-/

namespace ChaiBind.FileTree

open Text

/-! ## Steps -/

/-- Whatever name is stepped down to, an entry can have it unless it is too long. -/
def Named (steps : List Step) : Prop :=
  ∀ name, .down name ∈ steps → name.utf8ByteSize ≤ maxNameBytes → IsName name

/-- The texts between the slashes of a path. -/
def textsOf (path : List Char) : List (List Char) := (Text.pieces (· = '/') path).filter (· ≠ [])

/-- The steps of a path, whether or not it ends in a slash. -/
def innerSteps (path : List Char) : List Step := (textsOf path).map stepOf

theorem stepsOf_eq (path : List Char) : stepsOf path =
    innerSteps path ++ if textsOf path ≠ [] && path.getLast? = some '/' then [.settle] else [] :=
  rfl

theorem named_stepsOf (path : List Char) : Named (stepsOf path) := by
  intro name hname hshort
  rw [stepsOf_eq, List.mem_append] at hname
  rcases hname with hname | hname
  · obtain ⟨text, htext, hstep⟩ := List.mem_map.1 hname
    obtain ⟨hpiece, hne⟩ := List.mem_filter.1 htext
    unfold stepOf at hstep
    split_ifs at hstep with hhere hup
    cases hstep
    have hslash : '/' ∉ text := fun hmem => by
      have hsep := eq_false_of_mem_pieces hpiece hmem
      simp at hsep
    refine ⟨?_, ?_, ?_, by rwa [String.toList_ofList], hshort⟩
    all_goals
      rw [Ne, ← String.toList_inj, String.toList_ofList]
      first | exact of_decide_eq_true hne | exact hhere | exact hup
  · split at hname
    · cases List.mem_singleton.1 hname
    · cases hname

theorem textsOf_append_slash (u v : List Char) :
    textsOf (u ++ '/' :: v) = textsOf u ++ textsOf v := by
  rw [textsOf, pieces_append_sep u (by simp), List.filter_append]
  rfl

theorem innerSteps_append_slash (u v : List Char) :
    innerSteps (u ++ '/' :: v) = innerSteps u ++ innerSteps v := by
  rw [innerSteps, textsOf_append_slash, List.map_append]
  rfl

/-- A name is no text between slashes that stays in a directory or leads up. -/
theorem IsName.toList_ne {name : String} (h : IsName name) :
    name.toList ≠ [] ∧ name.toList ≠ ['.'] ∧ name.toList ≠ ['.', '.'] :=
  ⟨fun heq => h.nonempty (String.toList_inj.1 heq),
    fun heq => h.notHere (String.toList_inj.1 (heq.trans String.toList_ofList.symm)),
    fun heq => h.notUp (String.toList_inj.1 (heq.trans String.toList_ofList.symm))⟩

theorem IsName.pieces_toList {name : String} (h : IsName name) :
    Text.pieces (· = '/') name.toList = [name.toList] := by
  refine pieces_of_forall fun c hc => decide_eq_false ?_
  rintro rfl
  exact h.noSlash hc

/-- The path of a name that an entry can have. -/
theorem innerSteps_name {name : String} (h : IsName name) :
    innerSteps name.toList = [.down name] := by
  obtain ⟨hempty, hhere, hup⟩ := h.toList_ne
  rw [innerSteps, textsOf, h.pieces_toList, List.filter_cons_of_pos (by simpa using hempty)]
  show [stepOf name.toList] = _
  rw [stepOf, if_neg hhere, if_neg hup, String.ofList_toList]

theorem toList_join (shown name : String) : (Path.join shown name).toList =
    if shown.toList.getLast? = some '/' then shown.toList ++ name.toList
    else shown.toList ++ '/' :: name.toList := by
  unfold Path.join
  split <;> simp

/-- A name in a directory is stepped down to after the steps of the directory. -/
theorem innerSteps_join (shown : String) {name : String} (h : IsName name) :
    innerSteps (Path.join shown name).toList = innerSteps shown.toList ++ [.down name] := by
  rw [toList_join]
  split
  · rename_i hlast
    obtain ⟨u, hu⟩ := List.getLast?_eq_some_iff.1 hlast
    rw [hu, List.append_assoc, List.singleton_append, innerSteps_append_slash,
      innerSteps_append_slash, innerSteps_name h]
    simp [innerSteps, textsOf, Text.pieces]
  · rw [innerSteps_append_slash, innerSteps_name h]

theorem stepsOf_join (shown : String) {name : String} (h : IsName name) :
    stepsOf (Path.join shown name).toList = innerSteps shown.toList ++ [.down name] := by
  have hempty := h.toList_ne.1
  have hlast : (Path.join shown name).toList.getLast? ≠ some '/' := by
    have hname : name.toList.getLast? ≠ some '/' := fun hlast =>
      h.noSlash (List.mem_of_getLast? hlast)
    have hc := List.getLast?_eq_some_getLast hempty
    rw [hc] at hname
    rw [toList_join]
    split
    · rwa [List.getLast?_append, hc]
    · rwa [List.getLast?_append, List.getLast?_cons, hc]
  rw [stepsOf_eq, innerSteps_join shown h, if_neg (by simp [hlast]), List.append_nil]

theorem startOf_join {shown : String} (hshown : shown ≠ "") (name : String) (d : Address) :
    startOf (Path.join shown name).toList d = startOf shown.toList d := by
  obtain ⟨c, cs, hcs⟩ : ∃ c cs, shown.toList = c :: cs :=
    List.exists_cons_of_ne_nil fun heq => hshown (String.toList_inj.1 heq)
  rw [startOf, startOf, toList_join, hcs]
  split <;> rfl

theorem join_ne_empty {shown : String} (hshown : shown ≠ "") (name : String) :
    Path.join shown name ≠ "" := by
  rw [Ne, ← String.toList_inj, toList_join]
  have hne : shown.toList ≠ [] := fun heq => hshown (String.toList_inj.1 heq)
  split <;> simp [hne]

/-- A path without steps is that of the root. -/
theorem head?_of_stepsOf_eq_nil {path : List Char} (hne : path ≠ []) (h : stepsOf path = []) :
    path.head? = some '/' := by
  cases path with
  | nil => exact absurd rfl hne
  | cons c cs =>
    by_contra hc
    have hsep : c ≠ '/' := fun heq => hc (heq ▸ rfl)
    rw [stepsOf_eq, List.append_eq_nil_iff] at h
    have htexts : textsOf (c :: cs) = [] := List.map_eq_nil_iff.1 h.1
    rw [textsOf, Text.pieces, if_neg (by simpa using hsep), List.filter_eq_nil_iff] at htexts
    cases hps : Text.pieces (· = '/') cs <;> simp [hps, consHead] at htexts

end ChaiBind.FileTree
