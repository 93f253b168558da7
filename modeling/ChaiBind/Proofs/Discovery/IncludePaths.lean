import ChaiBind.Path
import ChaiBind.Proofs.Text.Pieces
import Mathlib.Data.List.Infix

/-!
# Include paths

The path under which a header is included is made of names with a slash between two of them. Names
are not empty and hold no slash (`of_mem_names`), so that no two slashes follow each other
(`not_slashes_isInfix_includeText`).
-/

namespace ChaiBind.Path

open Text

theorem of_mem_piecesFrom {isFirst : Bool} {start : Nat} {texts : List (List Char)} {q : Piece}
    (h : q ∈ piecesFrom isFirst start texts) {name : List Char} (hname : q.component = .name name) :
    name ∈ texts ∧ name ≠ [] := by
  induction texts generalizing isFirst start with
  | nil => cases h
  | cons text texts ih =>
    rw [piecesFrom, List.mem_append] at h
    rcases h with h | h
    · obtain ⟨component, hcomponent, rfl⟩ := Option.map_eq_some_iff.1 (Option.mem_toList.1 h)
      dsimp only at hname
      subst hname
      unfold componentOf at hcomponent
      split at hcomponent
      · cases hcomponent
      · rename_i hne
        split at hcomponent
        · split at hcomponent <;> cases hcomponent
        · split at hcomponent
          · cases hcomponent
          · cases hcomponent
            exact ⟨List.mem_cons_self, hne⟩
    · obtain ⟨hmem, hne⟩ := ih h
      exact ⟨List.mem_cons_of_mem text hmem, hne⟩

/-- The names of a path stand between slashes. -/
theorem of_mem_names {path name : List Char} (h : name ∈ names path) : name ≠ [] ∧ '/' ∉ name := by
  obtain ⟨component, hmem, hname⟩ := List.mem_filterMap.1 h
  obtain ⟨q, hq, rfl⟩ := List.mem_map.1 hmem
  have hcomponent : q.component = .name name := by
    split at hname
    · rename_i hcomponent
      cases hname
      exact hcomponent
    · cases hname
  have hpiece : name ∈ Text.pieces (· = '/') path ∧ name ≠ [] := by
    unfold pieces at hq
    split at hq
    · rcases List.mem_cons.1 hq with rfl | hq
      · cases hname
      · exact of_mem_piecesFrom hq hcomponent
    · exact of_mem_piecesFrom hq hcomponent
  refine ⟨hpiece.2, fun hslash => ?_⟩
  exact of_decide_eq_false (eq_false_of_mem_pieces hpiece.1 hslash) rfl

/-- There are no two slashes in a row in the path under which a header is included. -/
theorem not_slashes_isInfix_includeText (root path : String) :
    ¬ ['/', '/'] <:+: (includeText root path).toList := by
  intro hinside
  unfold includeText at hinside
  dsimp only at hinside
  rw [String.toList_ofList] at hinside
  generalize (below? root.toList path.toList).getD path.toList = relative at hinside
  obtain ⟨u, v, htext⟩ := hinside
  have hnames : names relative ≠ [] := by
    intro hnil
    rw [hnil] at htext
    simp at htext
  -- between the two slashes stands an empty name
  have hpieces := pieces_intercalate (fun name hname => (of_mem_names hname).2) hnames
  have hempty : [] ∈ names relative := by
    rw [← hpieces, ← htext, List.append_assoc, List.cons_append, pieces_append_sep u (by simp)]
    refine List.mem_append_right _ ?_
    rw [List.cons_append, ← List.nil_append ('/' :: _), pieces_append_sep [] (by simp)]
    exact List.mem_append_left _ List.mem_cons_self
  exact (of_mem_names hempty).1 rfl

end ChaiBind.Path
