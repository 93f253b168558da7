import ChaiBind.Config.Exclude
import ChaiBind.Proofs.Text.Pieces
import Mathlib.Data.List.Infix

/-!
# Paths that are left out

What a pattern leaves out, said of the texts that stand between the slashes of a path.

* `isExcluded_directory`: the two patterns for a directory of some name leave out what lies in one.
* `isExcluded_anywhere_iff`: a pattern that starts with `**/` and has no star behind that leaves out
  the paths that end in what follows, be it in the middle of a name (`EndsInside`).
-/

namespace ChaiBind

open Text

theorem dropEnding?_eq_some_iff {ending cs front : List Char} :
    dropEnding? ending cs = some front ↔ cs = front ++ ending := by
  have hreverse : cs = front ++ ending ↔ ending.reverse ++ front.reverse = cs.reverse := by
    rw [← List.reverse_append, List.reverse_inj, eq_comm]
  rw [hreverse, dropEnding?, Option.map_eq_some_iff]
  simp only [List.isPrefixOf?_eq_some_iff_append_eq]
  constructor
  · rintro ⟨rest, hrest, rfl⟩
    rw [← hrest, List.reverse_reverse]
  · exact fun h => ⟨_, h, List.reverse_reverse front⟩

theorem holds_iff {text cs : List Char} : holds text cs ↔ text <:+: cs := by
  induction cs with
  | nil => simp [holds]
  | cons c cs ih => rw [holds, Bool.or_eq_true, ih, List.isPrefixOf_iff_prefix, List.infix_cons_iff]

namespace ExcludePattern

/-! ## What a written pattern means -/

/-- A directory anywhere in the path. -/
theorem ofText_anywhere_directory (d : List Char) :
    ofText ('*' :: '*' :: '/' :: (d ++ ['/', '*'])) = .within d := by
  rw [ofText, ofAnywhere, dropEnding?_eq_some_iff.2 rfl]

/-- Without the stars in front the same directory is meant, unless two stars are its name. -/
theorem ofText_directory {d : List Char} (hslash : '/' ∉ d) (hstars : d ≠ ['*', '*']) :
    ofText (d ++ ['/', '*']) = .within d := by
  have hplain : ofPlain (d ++ ['/', '*']) = .within d := by
    rw [ofPlain, if_neg (by simp), dropEnding?_eq_some_iff.2 rfl]
  rw [← hplain]
  unfold ofText
  split
  · rename_i rest heq
    -- the first slash comes right behind the name of the directory
    match d, heq with
    | [], heq => simp at heq
    | [_], heq => simp at heq
    | [_, _], heq =>
      simp only [List.cons_append, List.nil_append, List.cons.injEq] at heq
      exact absurd (by rw [heq.1, heq.2.1]) hstars
    | _ :: _ :: c :: _, heq =>
      simp only [List.cons_append, List.cons.injEq] at heq
      simp [heq.2.2.1] at hslash
  · rfl

/-- What has no star behind the slash is an ending. -/
theorem ofText_anywhere_ending {s : List Char} (hstar : '*' ∉ s) :
    ofText ('*' :: '*' :: '/' :: s) = .ending s := by
  have hnone : dropEnding? ['/', '*'] s = none := by
    refine Option.eq_none_iff_forall_ne_some.2 fun front h => hstar ?_
    rw [dropEnding?_eq_some_iff.1 h]
    simp
  rw [ofText, ofAnywhere, hnone]

/-- Two stars are no directory but stand for any, so that what follows the slash is an ending. -/
example : ofText "**/*".toList = .ending ['*'] := by decide

end ExcludePattern

/-! ## Directories on a path -/

/-- A text stands between two slashes of a path, or in front of the first one. -/
theorem mem_dropLast_pieces_iff {d : Char} {w cs : List Char} (hw : d ∉ w) :
    w ∈ (pieces (· = d) cs).dropLast ↔
      w ++ [d] <+: cs ∨ d :: (w ++ [d]) <:+: cs := by
  have hsep : ∀ c ∈ w, decide (c = d) = false := fun c hc => decide_eq_false fun heq => hw (heq ▸ hc)
  have hfirst : ∀ v, pieces (· = d) (w ++ d :: v) = w :: pieces (· = d) v := fun v =>
    pieces_append_cons hsep (decide_eq_true rfl) v
  constructor
  · intro hmem
    obtain ⟨above, below, hpieces⟩ := List.append_of_mem hmem
    have hne := pieces_ne_nil (· = d) cs
    have hall := List.dropLast_append_getLast hne
    rw [hpieces, List.append_assoc, List.cons_append] at hall
    obtain ⟨p, ps, hps⟩ := List.exists_cons_of_ne_nil
      (List.append_ne_nil_of_right_ne_nil below (List.cons_ne_nil _ []))
    rw [hps] at hall
    rw [← intercalate_pieces d cs, ← hall]
    by_cases habove : above = []
    · refine .inl ⟨[d].intercalate (p :: ps), ?_⟩
      rw [habove, List.nil_append, intercalate_cons_char, List.append_assoc]
      rfl
    · refine .inr ⟨[d].intercalate above, [d].intercalate (p :: ps), ?_⟩
      rw [intercalate_append habove (List.cons_ne_nil _ _), intercalate_cons_char]
      simp
  · rintro (⟨v, rfl⟩ | ⟨u, v, rfl⟩)
    · rw [List.append_assoc, List.singleton_append, hfirst,
        List.dropLast_cons_of_ne_nil (pieces_ne_nil _ v)]
      exact List.mem_cons_self
    · rw [List.append_assoc, List.cons_append, pieces_append_sep u (decide_eq_true rfl),
        List.append_assoc, List.singleton_append, hfirst,
        List.dropLast_append_of_ne_nil (List.cons_ne_nil _ _),
        List.dropLast_cons_of_ne_nil (pieces_ne_nil _ v)]
      exact List.mem_append_right _ List.mem_cons_self

theorem ExcludePattern.matches?_within_iff {d path : List Char} (hslash : '/' ∉ d) :
    (within d).matches? path ↔ d ∈ (pieces (· = '/') path).dropLast := by
  rw [mem_dropLast_pieces_iff hslash, matches?, Bool.or_eq_true, holds_iff,
    List.isPrefixOf_iff_prefix, or_comm, List.cons_append]

/-- A configuration with one exclude pattern. -/
def Config.excluding (c : Config) (pattern : String) : Config := { c with excludes := [pattern] }

theorem Config.isExcluded_excluding (c : Config) (pattern path : String) :
    (c.excluding pattern).isExcluded path =
      (ExcludePattern.ofText pattern.toList).matches? (withSlashes path.toList) :=
  Bool.or_false _

/-- A directory is left out by its name, with or without stars in front: a path is left out exactly
if the name is one of the texts between its slashes, other than the last. -/
theorem isExcluded_directory (c : Config) (path : String) {directory : String}
    (hslash : '/' ∉ directory.toList) (hstars : directory ≠ "**") :
    (c.excluding ("**/" ++ directory ++ "/*")).isExcluded path =
        (c.excluding (directory ++ "/*")).isExcluded path ∧
      ((c.excluding (directory ++ "/*")).isExcluded path ↔
        directory.toList ∈ (pieces (· = '/') (withSlashes path.toList)).dropLast) := by
  have hanywhere : ExcludePattern.ofText ("**/" ++ directory ++ "/*").toList =
      .within directory.toList := by
    rw [String.toList_append, String.toList_append]
    exact ExcludePattern.ofText_anywhere_directory directory.toList
  have hplain : ExcludePattern.ofText (directory ++ "/*").toList = .within directory.toList := by
    rw [String.toList_append]
    exact ExcludePattern.ofText_directory hslash fun h => hstars (String.toList_inj.1 h)
  rw [Config.isExcluded_excluding, Config.isExcluded_excluding, hanywhere, hplain]
  exact ⟨rfl, ExcludePattern.matches?_within_iff hslash⟩

/-- A directory that stands behind a backslash, and one of which only the end is named. -/
theorem isExcluded_directory_glm :
    let path := "src\\third_party/glm.h"
    (Config.defaults.excluding "**/third_party/*").isExcluded path = true ∧
      (Config.defaults.excluding "third_party/*").isExcluded path = true ∧
      (Config.defaults.excluding "party/*").isExcluded path = false := by
  intro path
  have hthird : '/' ∉ "third_party".toList ∧ "third_party" ≠ "**" := by decide
  have hparty : '/' ∉ "party".toList ∧ "party" ≠ "**" := by decide
  obtain ⟨hsame, hleft⟩ := isExcluded_directory Config.defaults path hthird.1 hthird.2
  obtain ⟨-, hkept⟩ := isExcluded_directory Config.defaults path hparty.1 hparty.2
  have hplain := hleft.2 (by decide)
  exact ⟨hsame.trans hplain, hplain, Bool.eq_false_iff.2 fun h => absurd (hkept.1 h) (by decide)⟩

/-! ## Endings -/

/-- A text ends in another one with a character in front of it that is no slash. -/
def EndsInside (s text : List Char) : Prop := ∃ front c, c ≠ '/' ∧ text = front ++ c :: s

/-- What ends in a text either is that text, or has a slash in front of it, or something else. -/
theorem suffix_iff {s text : List Char} :
    s <:+ text ↔ (text = s ∨ '/' :: s <:+ text) ∨ EndsInside s text := by
  constructor
  · rintro ⟨front, rfl⟩
    rcases front.eq_nil_or_concat' with rfl | ⟨front, c, rfl⟩
    · exact .inl (.inl rfl)
    · by_cases hc : c = '/'
      · exact .inl (.inr ⟨front, by rw [hc, List.append_assoc]; rfl⟩)
      · exact .inr ⟨front, c, hc, by rw [List.append_assoc]; rfl⟩
  · rintro ((rfl | h) | ⟨front, c, -, rfl⟩)
    · exact List.suffix_refl _
    · exact (List.suffix_cons '/' s).trans h
    · exact (List.suffix_cons c s).trans (List.suffix_append front (c :: s))

theorem not_endsInside {s text : List Char} (h : text = s ∨ '/' :: s <:+ text) :
    ¬ EndsInside s text := by
  rintro ⟨front, c, hc, rfl⟩
  rcases h with h | h
  · have hlength := congrArg List.length h
    simp at hlength
    omega
  · have hsame := List.suffix_of_suffix_length_le h (List.suffix_append front (c :: s)) (by simp)
    exact hc (List.cons.inj (hsame.eq_of_length (by simp))).1.symm

/-- What has no slash ends a path exactly if it ends the last of the texts between its slashes. -/
theorem suffix_iff_getLast_pieces {s : List Char} (hslash : '/' ∉ s) (text : List Char) :
    s <:+ text ↔ s <:+ (pieces (· = '/') text).getLast (pieces_ne_nil _ text) := by
  have hne := pieces_ne_nil (· = '/') text
  have hall := List.dropLast_append_getLast hne
  have htext := intercalate_pieces '/' text
  by_cases hfront : (pieces (· = '/') text).dropLast = []
  · rw [hfront, List.nil_append] at hall
    rw [← hall, List.intercalate_singleton] at htext
    rw [htext]
  · have hlast : '/' :: (pieces (· = '/') text).getLast hne <:+ text := by
      have hjoin := @intercalate_append ['/'] _ _ hfront
        (List.cons_ne_nil ((pieces (· = '/') text).getLast hne) [])
      rw [hall, htext, List.intercalate_singleton, List.append_assoc] at hjoin
      exact ⟨_, hjoin.symm⟩
    refine ⟨fun h => ?_, fun h => h.trans ((List.suffix_cons '/' _).trans hlast)⟩
    rcases List.suffix_or_suffix_of_suffix h hlast with hshort | hlong
    · rcases List.suffix_cons_iff.1 hshort with rfl | hshort
      · exact absurd List.mem_cons_self hslash
      · exact hshort
    · exact absurd (hlong.subset List.mem_cons_self) hslash

/-- A pattern that starts with `**/` and has no star behind that leaves out what ends in the rest of
it, that is the files with such a name if the rest has no slash. Only the rest itself and what has it
behind a slash are left out if and only if the path does not end inside a name. -/
theorem isExcluded_anywhere_iff (c : Config) (path : String) {ending : String}
    (hstar : '*' ∉ ending.toList) :
    let text := withSlashes path.toList
    let leftOut := (c.excluding ("**/" ++ ending)).isExcluded path
    (leftOut ↔ ending.toList <:+ text) ∧
      ('/' ∉ ending.toList →
        (leftOut ↔ ending.toList <:+ (pieces (· = '/') text).getLast (pieces_ne_nil _ text))) ∧
      ((leftOut ↔ text = ending.toList ∨ '/' :: ending.toList <:+ text) ↔
        ¬ EndsInside ending.toList text) := by
  intro text leftOut
  have hmeans : ExcludePattern.ofText ("**/" ++ ending).toList = .ending ending.toList := by
    rw [String.toList_append]
    exact ExcludePattern.ofText_anywhere_ending hstar
  have hends : leftOut ↔ ending.toList <:+ text := by
    show (c.excluding ("**/" ++ ending)).isExcluded path = true ↔ _
    rw [Config.isExcluded_excluding, hmeans, ExcludePattern.matches?, List.isSuffixOf_iff_suffix]
  refine ⟨hends, fun hslash => hends.trans (suffix_iff_getLast_pieces hslash text), ?_⟩
  rw [hends, suffix_iff]
  constructor
  · exact fun h hinside => not_endsInside (h.1 (.inr hinside)) hinside
  · exact fun h => or_iff_left h

/-- A name behind a directory is no part of a longer name. -/
theorem isExcluded_anywhere_panel :
    let path := "src\\ui/panel.h"
    '*' ∉ "ui/panel.h".toList ∧ ¬ EndsInside "ui/panel.h".toList (withSlashes path.toList) ∧
      (Config.defaults.excluding "**/ui/panel.h").isExcluded path = true := by
  intro path
  have hstar : '*' ∉ "ui/panel.h".toList := by decide
  have hslash : '/' :: "ui/panel.h".toList <:+ withSlashes path.toList := by decide
  obtain ⟨hends, -, -⟩ := isExcluded_anywhere_iff Config.defaults path hstar
  exact ⟨hstar, not_endsInside (.inr hslash), hends.2 ((List.suffix_cons '/' _).trans hslash)⟩

/-- A header is left out by the name of another one, since its own name ends in it. -/
theorem reconfig_leftOut :
    let text := withSlashes "src/reconfig.h".toList
    (Config.defaults.excluding "**/config.h").isExcluded "src/reconfig.h" = true ∧
      ¬ (text = "config.h".toList ∨ '/' :: "config.h".toList <:+ text) := by
  decide

end ChaiBind
