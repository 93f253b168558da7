import ChaiBind.Text.Line
import Mathlib.Data.List.TakeWhile

/-!
# Pieces of a text

The pieces of a text between separators are joined to the text again (`intercalate_pieces`), they
hold every character that is no separator (`exists_mem_pieces`) and no other
(`eq_false_of_mem_pieces`).

* `pieces_append`: a part without separators goes in front of the first piece.
* `pieces_append_sep`: the pieces of two texts with a separator between them.
-/

namespace ChaiBind.Text

/-! ## Cutting -/

theorem pieces_ne_nil (sep : Char → Bool) (cs : List Char) : pieces sep cs ≠ [] := by
  rw [← List.length_pos_iff, length_pieces]
  exact Nat.succ_pos _

theorem pieces_append {sep : Char → Bool} {u : List Char} (hu : ∀ c ∈ u, sep c = false)
    (v : List Char) :
    pieces sep (u ++ v) = (u ++ (pieces sep v).headD []) :: (pieces sep v).tail := by
  induction u with
  | nil =>
    obtain ⟨p, ps, hps⟩ := List.exists_cons_of_ne_nil (pieces_ne_nil sep v)
    rw [List.nil_append, hps]
    rfl
  | cons c u ih =>
    obtain ⟨hc, hu⟩ := List.forall_mem_cons.1 hu
    rw [List.cons_append, pieces, if_neg (Bool.eq_false_iff.1 hc), ih hu]
    rfl

theorem pieces_of_forall {sep : Char → Bool} {u : List Char} (hu : ∀ c ∈ u, sep c = false) :
    pieces sep u = [u] := by
  have h := pieces_append hu []
  rwa [List.append_nil, pieces, List.headD_cons, List.append_nil] at h

theorem pieces_append_cons {sep : Char → Bool} {u : List Char} {d : Char}
    (hu : ∀ c ∈ u, sep c = false) (hd : sep d = true) (v : List Char) :
    pieces sep (u ++ d :: v) = u :: pieces sep v := by
  rw [pieces_append hu, pieces, if_pos hd]
  simp

theorem consHead_append {c : Char} {ps : List (List Char)} (h : ps ≠ []) (qs : List (List Char)) :
    consHead c (ps ++ qs) = consHead c ps ++ qs := by
  cases ps with
  | nil => exact absurd rfl h
  | cons p ps => rfl

theorem pieces_append_sep {sep : Char → Bool} (u : List Char) {d : Char} (hd : sep d)
    (v : List Char) : pieces sep (u ++ d :: v) = pieces sep u ++ pieces sep v := by
  induction u with
  | nil => simp [pieces, hd]
  | cons c u ih =>
    rw [List.cons_append, pieces, pieces, ih]
    split
    · rfl
    · exact consHead_append (pieces_ne_nil sep u) _

theorem splitLines_append_newline (u v : List Char) :
    splitLines (u ++ '\n' :: v) = splitLines u ++ splitLines v :=
  pieces_append_sep u rfl v

/-! ## What pieces hold -/

theorem eq_false_of_mem_pieces {sep : Char → Bool} {cs p : List Char} (hp : p ∈ pieces sep cs)
    {c : Char} (hc : c ∈ p) : sep c = false := by
  induction cs generalizing p with
  | nil =>
    rw [List.mem_singleton.1 hp] at hc
    cases hc
  | cons d ds ih =>
    rw [pieces] at hp
    split at hp
    · rcases List.mem_cons.1 hp with rfl | hp
      · cases hc
      · exact ih hp hc
    · rename_i hd
      cases hps : pieces sep ds with
      | nil =>
        rw [hps, consHead, List.mem_singleton] at hp
        subst hp
        rw [List.mem_singleton.1 hc]
        exact Bool.not_eq_true _ ▸ hd
      | cons q qs =>
        rw [hps, consHead] at hp
        rw [hps] at ih
        rcases List.mem_cons.1 hp with rfl | hp
        · rcases List.mem_cons.1 hc with rfl | hc
          · exact Bool.not_eq_true _ ▸ hd
          · exact ih List.mem_cons_self hc
        · exact ih (List.mem_cons_of_mem _ hp) hc

theorem exists_mem_pieces {sep : Char → Bool} {c : Char} {cs : List Char} (h : c ∈ cs)
    (hc : sep c = false) : ∃ w ∈ pieces sep cs, c ∈ w := by
  induction cs with
  | nil => cases h
  | cons d ds ih =>
    rw [pieces]
    rcases List.mem_cons.1 h with rfl | h
    · rw [if_neg (by simp [hc])]
      cases pieces sep ds <;> simp [consHead]
    · obtain ⟨w, hw, hcw⟩ := ih h
      split
      · exact ⟨w, List.mem_cons_of_mem _ hw, hcw⟩
      · cases hps : pieces sep ds with
        | nil => simp [hps] at hw
        | cons p ps =>
          rw [hps] at hw
          rw [consHead]
          rcases List.mem_cons.1 hw with rfl | hw
          · exact ⟨d :: w, List.mem_cons_self, List.mem_cons_of_mem d hcw⟩
          · exact ⟨w, List.mem_cons_of_mem _ hw, hcw⟩

/-! ## Joining -/

theorem intercalate_consHead (sep : List Char) (c : Char) {ps : List (List Char)} (h : ps ≠ []) :
    sep.intercalate (consHead c ps) = c :: sep.intercalate ps := by
  cases ps with
  | nil => exact absurd rfl h
  | cons p ps =>
    cases ps with
    | nil => simp [consHead]
    | cons q ps => simp [consHead, List.intercalate_cons_cons]

theorem intercalate_pieces (d : Char) (cs : List Char) :
    [d].intercalate (pieces (· = d) cs) = cs := by
  induction cs with
  | nil => simp [pieces]
  | cons c cs ih =>
    have hne := pieces_ne_nil (· = d) cs
    rw [pieces]
    split
    · rename_i hc
      obtain ⟨p, ps, hps⟩ := List.exists_cons_of_ne_nil hne
      rw [hps] at ih ⊢
      rw [List.intercalate_cons_cons, ih, of_decide_eq_true hc]
      rfl
    · rw [intercalate_consHead _ _ hne, ih]

/-- Cutting undoes joining if no part holds a separator. -/
theorem pieces_intercalate {d : Char} {ps : List (List Char)} (hps : ∀ p ∈ ps, d ∉ p)
    (hne : ps ≠ []) : pieces (· = d) ([d].intercalate ps) = ps := by
  induction ps with
  | nil => exact absurd rfl hne
  | cons p ps ih =>
    obtain ⟨hp, hps⟩ := List.forall_mem_cons.1 hps
    have hsep : ∀ c ∈ p, decide (c = d) = false := fun c hc =>
      decide_eq_false fun heq => hp (heq ▸ hc)
    cases ps with
    | nil => rw [List.intercalate_singleton, pieces_of_forall hsep]
    | cons q qs =>
      rw [List.intercalate_cons_cons, List.append_assoc, List.singleton_append,
        pieces_append_cons hsep (decide_eq_true rfl), ih hps (List.cons_ne_nil q qs)]

theorem intercalate_append {sep : List Char} {ps qs : List (List Char)} (hps : ps ≠ [])
    (hqs : qs ≠ []) :
    sep.intercalate (ps ++ qs) = sep.intercalate ps ++ sep ++ sep.intercalate qs := by
  obtain ⟨q, qs, rfl⟩ := List.exists_cons_of_ne_nil hqs
  induction ps with
  | nil => exact absurd rfl hps
  | cons p ps ih =>
    cases ps with
    | nil => rw [List.singleton_append, List.intercalate_cons_cons, List.intercalate_singleton]
    | cons p' ps =>
      rw [List.cons_append, List.cons_append, List.intercalate_cons_cons, ← List.cons_append,
        ih (List.cons_ne_nil p' ps), List.intercalate_cons_cons]
      simp only [List.append_assoc]

/-- Parts with a separator after each. -/
theorem intercalate_append_sep {sep : List Char} {ps : List (List Char)} (hps : ps ≠ []) :
    sep.intercalate ps ++ sep = ps.flatMap (· ++ sep) := by
  induction ps with
  | nil => exact absurd rfl hps
  | cons p ps ih =>
    cases ps with
    | nil => simp
    | cons q qs =>
      rw [List.intercalate_cons_cons, List.append_assoc, ih (List.cons_ne_nil q qs)]
      rfl

theorem intercalate_cons_char (d : Char) (p q : List Char) (ps : List (List Char)) :
    [d].intercalate (p :: q :: ps) = p ++ d :: [d].intercalate (q :: ps) := by
  rw [List.intercalate_cons_cons, List.append_assoc, List.singleton_append]

theorem mem_intercalate {sep w : List Char} {ws : List (List Char)} {c : Char} (hw : w ∈ ws)
    (hc : c ∈ w) : c ∈ sep.intercalate ws := by
  induction ws with
  | nil => cases hw
  | cons v vs ih =>
    cases vs with
    | nil =>
      obtain rfl := List.mem_singleton.1 hw
      rwa [List.intercalate_singleton]
    | cons v' vs =>
      rw [List.intercalate_cons_cons]
      rcases List.mem_cons.1 hw with rfl | hw
      · exact List.mem_append_left _ (List.mem_append_left _ hc)
      · exact List.mem_append_right _ (ih hw)

theorem forall_mem_intercalate {α : Type} {P : α → Prop} {sep : List α} {ws : List (List α)}
    (hsep : ∀ x ∈ sep, P x) (hws : ∀ w ∈ ws, ∀ x ∈ w, P x) : ∀ x ∈ sep.intercalate ws, P x := by
  induction ws with
  | nil => nofun
  | cons w ws ih =>
    obtain ⟨hw, hws⟩ := List.forall_mem_cons.1 hws
    cases ws with
    | nil => rwa [List.intercalate_singleton]
    | cons v vs =>
      rw [List.intercalate_cons_cons, List.forall_mem_append, List.forall_mem_append]
      exact ⟨⟨hw, hsep⟩, ih hws⟩

end ChaiBind.Text
