import ChaiBind.Proofs.Text.Characters
import ChaiBind.Proofs.Text.Literals
import ChaiBind.Proofs.Text.Pieces

/-!
# Fragments of a text

Cutting at top level and trimming leave parts of a text, so that what a text does not hold no such
part holds.

* `isInfix_of_mem_splitTopLevel`: the pieces between separators at top level.
* `beforeAssignment_isPrefix`: what comes before an assignment.
* `OneLine`: a text without a newline, as identifiers are.
-/

namespace ChaiBind.Text

/-! ## Cutting and trimming -/

theorem trimEnd_isPrefix (cs : List Char) : trimEnd cs <+: cs := by
  obtain ⟨b, -, hcs⟩ := exists_append_trimEnd cs
  exact ⟨b, hcs.symm⟩

theorem trim_isInfix (cs : List Char) : trim cs <:+: cs :=
  (trimEnd_isPrefix _).isInfix.trans (List.dropWhile_suffix isBlank).isInfix

/-- The first piece starts the text, and each piece stands in it. -/
theorem splitTopLevelFrom_isInfix (sep : Char) (s : Nesting) (cs : List Char) :
    (splitTopLevelFrom sep s cs).headD [] <+: cs ∧ ∀ p ∈ splitTopLevelFrom sep s cs, p <:+: cs := by
  induction cs generalizing s with
  | nil => simp [splitTopLevelFrom]
  | cons c cs ih =>
    obtain ⟨hfirst, hall⟩ := ih (s.step sep c).2
    rw [splitTopLevelFrom_cons]
    split
    · refine ⟨List.nil_prefix, List.forall_mem_cons.2 ⟨List.nil_infix, fun p hp => ?_⟩⟩
      exact (hall p hp).trans (List.suffix_cons c cs).isInfix
    · obtain ⟨q, qs, hq⟩ := List.exists_cons_of_ne_nil
        (splitTopLevelFrom_ne_nil sep (s.step sep c).2 cs)
      rw [hq] at hfirst hall ⊢
      have hhead : c :: q <+: c :: cs := List.cons_prefix_cons.2 ⟨rfl, hfirst⟩
      refine ⟨hhead, List.forall_mem_cons.2 ⟨hhead.isInfix, fun p hp => ?_⟩⟩
      exact (hall p (List.mem_cons_of_mem q hp)).trans (List.suffix_cons c cs).isInfix

theorem isInfix_of_mem_splitTopLevel {sep : Char} {cs p : List Char}
    (h : p ∈ splitTopLevel sep cs) : p <:+: cs :=
  (splitTopLevelFrom_isInfix sep .start cs).2 p h

theorem beforeAssignment_isPrefix (cs : List Char) : beforeAssignment cs <+: cs :=
  (splitTopLevelFrom_isInfix '=' .start cs).1

/-! ## Texts on one line -/

theorem isBlank_newline : isBlank '\n' := by decide

/-- A text without a newline. -/
def OneLine (text : String) : Prop := '\n' ∉ text.toList

instance (text : String) : Decidable (OneLine text) :=
  inferInstanceAs (Decidable ('\n' ∉ text.toList))

theorem oneLine_ofList {cs : List Char} : OneLine (String.ofList cs) ↔ '\n' ∉ cs := by
  rw [OneLine, String.toList_ofList]

@[simp] theorem oneLine_append {a b : String} : OneLine (a ++ b) ↔ OneLine a ∧ OneLine b := by
  rw [OneLine, String.toList_append, List.mem_append, not_or, OneLine, OneLine]

theorem IsIdentifier.newline_notMem {name : List Char} (h : IsIdentifier name) : '\n' ∉ name :=
  fun hmem => by
    have hword := h.isWord_of_mem hmem
    rw [isWord_eq_false_of_isBlank isBlank_newline] at hword
    cases hword

theorem newline_notMem_of_isInfix {cs ds : List Char} (h : cs <:+: ds) (hds : '\n' ∉ ds) :
    '\n' ∉ cs :=
  fun hmem => hds (h.subset hmem)

theorem newline_notMem_of_mem_words {cs w : List Char} (hw : w ∈ words cs) : '\n' ∉ w := by
  intro hmem
  have hblank := eq_false_of_mem_pieces (List.mem_filter.1 hw).1 hmem
  rw [isBlank_newline] at hblank
  cases hblank

/-- Parts without a newline stay so when they are joined by such a separator. -/
theorem newline_notMem_intercalate {sep : List Char} (hsep : '\n' ∉ sep) {ps : List (List Char)}
    (hps : ∀ p ∈ ps, '\n' ∉ p) : '\n' ∉ sep.intercalate ps := by
  induction ps with
  | nil => exact List.not_mem_nil
  | cons p ps ih =>
    obtain ⟨hp, hps⟩ := List.forall_mem_cons.1 hps
    cases ps with
    | nil => rwa [List.intercalate_singleton]
    | cons q qs =>
      rw [List.intercalate_cons_cons]
      simp only [List.mem_append, not_or]
      exact ⟨⟨hp, hsep⟩, ih hps⟩

end ChaiBind.Text
