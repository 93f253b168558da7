import ChaiBind.Header.Member
import ChaiBind.Proofs.Text.Pieces
import ChaiBind.Proofs.Text.StrippedLines

/-!
# Lines that stripping keeps

Every newline of a text stays when its comments go, whether it stands in code, in a literal, at
the end of a line comment or inside a block comment. So the lines of the text and the lines that
are left are as many, and each of them is left of the line at its place
(`stripComments_linewise`). Only a last line that is all comment may be missing when lines are
paired that have their newlines at their ends (`lineLayers_of_unpaired`).

* `count_newline_stripPart`: the newlines of a part of a text.
* `length_inclusiveLines`: whole lines are as many as their newlines.
-/

namespace ChaiBind.Text

/-! ## Newlines -/

theorem count_newline_stripPart (s : Scan) (cs : List Char) (next : Option Char) :
    (stripPart s cs next).count '\n' = cs.count '\n' := by
  induction cs generalizing s with
  | nil => rfl
  | cons c cs ih =>
    rw [stripPart_cons]
    split
    · rw [List.count_cons, List.count_cons, ih]
    · rename_i hdropped
      have hne : c ≠ '\n' := by
        rintro rfl
        exact hdropped (survives_newline _)
      rw [ih, List.count_cons_of_ne hne]

theorem count_newline_stripComments (cs : List Char) :
    (stripComments cs).count '\n' = cs.count '\n' := by
  rw [stripComments, stripFrom_eq_stripPart, count_newline_stripPart]

/-- Whole lines are as many as their newlines. -/
theorem EndsLine.length_inclusiveLines {cs : List Char} (h : EndsLine cs) :
    (inclusiveLines cs).length = cs.count '\n' := by
  -- A line behind them, whatever it is, has all of them before it.
  have hbehind : inclusiveLines (cs ++ ['x']) = inclusiveLines cs ++ ['x'] :: [] :=
    inclusiveLines_append h ['x']
  rw [← count_newline_of_inclusiveLines hbehind, flatten_inclusiveLines]

/-! ## Lines at the same place -/

theorem forall₂_sublist_consHead {c : Char} {kept lines : List (List Char)}
    (h : List.Forall₂ List.Sublist kept lines) :
    List.Forall₂ List.Sublist (consHead c kept) (consHead c lines) := by
  cases h with
  | nil => exact .cons (List.Sublist.refl _) .nil
  | cons hline hlines => exact .cons (hline.cons_cons c) hlines

theorem forall₂_sublist_consHead_right {c : Char} {kept lines : List (List Char)}
    (hne : kept ≠ []) (h : List.Forall₂ List.Sublist kept lines) :
    List.Forall₂ List.Sublist kept (consHead c lines) := by
  cases h with
  | nil => exact absurd rfl hne
  | cons hline hlines => exact .cons (hline.cons c) hlines

/-- Each line that is left is left of the line at its place. -/
theorem forall₂_splitLines_stripFrom (s : Scan) (cs : List Char) :
    List.Forall₂ List.Sublist (splitLines (stripFrom s cs)) (splitLines cs) := by
  induction cs generalizing s with
  | nil => exact .cons (List.Sublist.refl _) .nil
  | cons c cs ih =>
    have ih := ih (s.step c cs.head?).2
    rw [stripFrom_cons]
    by_cases hc : isNewline c
    · obtain rfl := isNewline_iff.1 hc
      rw [if_pos (survives_newline _), splitLines, splitLines, pieces, pieces, if_pos hc, if_pos hc]
      exact .cons (List.Sublist.refl _) ih
    · have hlines : splitLines (c :: cs) = consHead c (splitLines cs) := by
        rw [splitLines, pieces, if_neg hc, splitLines]
      rw [hlines]
      split
      · rw [splitLines, pieces, if_neg hc]
        exact forall₂_sublist_consHead ih
      · exact forall₂_sublist_consHead_right (pieces_ne_nil _ _) ih

/-! ## Lines without a partner -/

/-- The characters of a line with their layers, where some lines stand above it. -/
def lineLayers (s : Scan) (cs : List Char) (above : List (List Char)) (line : List Char) :
    List (Layer × Char) :=
  ((layersFrom s cs).drop above.flatten.length).take line.length

/-- What leaves nothing is comment text. -/
theorem layersFrom_of_stripFrom_eq_nil {s : Scan} {cs : List Char} (h : stripFrom s cs = []) :
    layersFrom s cs = cs.map (Layer.comment, ·) := by
  induction cs generalizing s with
  | nil => rfl
  | cons c cs ih =>
    rw [stripFrom_cons] at h
    split at h
    · cases h
    · rename_i hdropped
      rw [layersFrom, (not_survives_iff.1 hdropped).1, ih h, List.map_cons]

/-- A line below as many lines as there are left is comment text. -/
theorem lineLayers_of_unpaired (s : Scan) {cs line : List Char} {above below : List (List Char)}
    (hlines : inclusiveLines cs = above ++ line :: below)
    (hunpaired : (inclusiveLines (stripFrom s cs)).length ≤ above.length) :
    lineLayers s cs above line = line.map (Layer.comment, ·) := by
  induction cs using linesInduction generalizing s above with
  | last start hstart =>
    by_cases hnil : start = []
    · subst hnil
      cases above <;> cases hlines
    rw [inclusiveLines_of_notMem hstart hnil] at hlines
    obtain ⟨rfl, hline⟩ | ⟨-, hline⟩ := List.singleton_eq_append_iff.1 hlines
    · obtain ⟨rfl, rfl⟩ := List.cons.inj hline
      have hstripped : stripFrom s line = [] :=
        inclusiveLines_eq_nil.1 (List.length_eq_zero_iff.1 (Nat.le_zero.1 hunpaired))
      have hall : (line.map (Layer.comment, ·)).length = line.length := List.length_map _
      show ((layersFrom s line).drop 0).take line.length = _
      rw [layersFrom_of_stripFrom_eq_nil hstripped, List.drop_zero, ← hall, List.take_length]
    · cases hline
  | cons start rest hstart ih =>
    have hsplit : start ++ '\n' :: rest = (start ++ ['\n']) ++ rest := by
      rw [List.append_assoc, List.singleton_append]
    have hends : EndsLine (start ++ ['\n']) := endsLine_append_newline start
    have hone : (start ++ ['\n']).count '\n' = 1 := by
      rw [List.count_append, List.count_eq_zero.2 hstart, List.count_singleton_self]
    rw [hsplit, stripFrom_append, inclusiveLines_append (hends.stripPart s _), List.length_append,
      (hends.stripPart s _).length_inclusiveLines, count_newline_stripPart, hone] at hunpaired
    rw [inclusiveLines_append_newline hstart] at hlines
    cases above with
    | nil => exact absurd hunpaired (by simp)
    | cons first above =>
      obtain ⟨rfl, hbelow⟩ := List.cons.inj hlines
      rw [List.length_cons, Nat.add_comm 1] at hunpaired
      have hlength := length_layersPart s (start ++ ['\n']) rest.head?
      rw [hsplit, lineLayers, layersFrom_append, List.flatten_cons, List.length_append, ← hlength,
        List.drop_append, List.drop_eq_nil_of_le (Nat.le_add_right _ _), Nat.add_sub_cancel_left,
        List.nil_append]
      exact ih _ hbelow (Nat.le_of_succ_le_succ hunpaired)

/-- Stripping a text keeps its newlines, and leaves of each line some of its characters, in order.
The lines that have no partner when the lines of a region are paired consist of comment text. -/
theorem stripComments_linewise (cs : List Char) :
    (stripComments cs).count '\n' = cs.count '\n' ∧
      List.Forall₂ List.Sublist (splitLines (stripComments cs)) (splitLines cs) ∧
      ∀ above line below, inclusiveLines cs = above ++ line :: below →
        (Header.pairedLines cs).length ≤ above.length →
          lineLayers .start cs above line = line.map (Layer.comment, ·) := by
  refine ⟨count_newline_stripComments cs, forall₂_splitLines_stripFrom .start cs, ?_⟩
  intro above line below hlines hunpaired
  have hlength : (Header.pairedLines cs).length = (inclusiveLines (stripComments cs)).length := by
    rw [Header.pairedLines, List.length_zip]
    exact Nat.min_eq_right (length_inclusiveLines_stripFrom_le .start cs)
  rw [hlength] at hunpaired
  exact lineLayers_of_unpaired .start hlines hunpaired

/-- A block comment that is never closed leaves its newline, and the line behind that has no
partner. -/
theorem stripComments_linewise_unclosed :
    let above := ["keep /* lost\n".toList]
    let line := "and gone".toList
    inclusiveLines (above.flatten ++ line) = above ++ line :: [] ∧
      (Header.pairedLines (above.flatten ++ line)).length ≤ above.length ∧
      lineLayers .start (above.flatten ++ line) above line = line.map (Layer.comment, ·) := by
  intro above line
  have hlines : inclusiveLines (above.flatten ++ line) = above ++ line :: [] := by decide
  have hunpaired : (Header.pairedLines (above.flatten ++ line)).length ≤ above.length := by decide
  exact ⟨hlines, hunpaired, (stripComments_linewise _).2.2 above line [] hlines hunpaired⟩

end ChaiBind.Text
