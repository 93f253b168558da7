import ChaiBind.Proofs.Text.Fragments
import ChaiBind.Proofs.Text.TopLevelBrackets

/-!
# Pieces at top level

Cutting a text at top level goes from its start to its end, and what has been read decides where it
is cut. So a text that ends right in front of one of its cuts has the same pieces up to there, and
what follows the cut has the others, from the nesting that is reached there
(`splitTopLevelFrom_front`).

* `splitTopLevel_take`: the pieces of a text make it up, and those in front of a cut are the pieces
  of what is in front of it.
-/

namespace ChaiBind.Text

/-- Pieces behind others make what they are joined to longer. -/
theorem eq_nil_of_intercalate_append {sep : Char} {ps qs : List (List Char)} (hps : ps ≠ [])
    (h : [sep].intercalate (ps ++ qs) = [sep].intercalate ps) : qs = [] := by
  by_contra hqs
  have hlength := congrArg List.length h
  rw [intercalate_append hps hqs, List.append_assoc, List.length_append, List.length_append,
    List.length_singleton] at hlength
  omega

/-- Of two starts of some pieces that are joined to the same text neither is longer. -/
theorem eq_of_append_of_intercalate {sep : Char} {ps qs ps' qs' : List (List Char)} (hps : ps ≠ [])
    (hps' : ps' ≠ []) (happend : ps ++ qs = ps' ++ qs')
    (hjoin : [sep].intercalate ps = [sep].intercalate ps') : ps = ps' := by
  rcases List.append_eq_append_iff.1 happend with ⟨rs, rfl, -⟩ | ⟨rs, rfl, -⟩
  · rw [eq_nil_of_intercalate_append hps hjoin.symm, List.append_nil]
  · rw [eq_nil_of_intercalate_append hps' hjoin, List.append_nil]

section Front

variable {sep : Char} {s : Nesting} {cs : List Char} {ps qs : List (List Char)} (hps : ps ≠ [])
  (hqs : qs ≠ []) (h : splitTopLevelFrom sep s cs = ps ++ qs)
include hps hqs h

/-- A text has a separator between its pieces in front of a cut and those behind it. -/
theorem eq_append_of_splitTopLevelFrom :
    cs = [sep].intercalate ps ++ sep :: [sep].intercalate qs := by
  rw [← intercalate_splitTopLevelFrom sep s cs, h, intercalate_append hps hqs, List.append_assoc,
    List.singleton_append]

/-- What is in front of a cut is cut into the pieces in front of it. What is behind is cut into the
others, from the nesting behind the separator. -/
theorem splitTopLevelFrom_front :
    splitTopLevelFrom sep s ([sep].intercalate ps) = ps ∧
      splitTopLevelFrom sep ((s.after sep ([sep].intercalate ps)).step sep sep).2
        ([sep].intercalate qs) = qs := by
  have htext := eq_append_of_splitTopLevelFrom hps hqs h
  have hcut : ((s.after sep ([sep].intercalate ps)).step sep sep).1 = true :=
    (exists_pieces_iff sep s _ _).1 ⟨ps, qs, hps, hqs, htext ▸ h, rfl, rfl⟩
  have hne := splitTopLevelFrom_ne_nil sep s ([sep].intercalate ps)
  rw [htext, splitTopLevelFrom_append, splitTopLevelFrom_cons, if_pos hcut,
    joinPieces_nil_cons hne] at h
  have hfront := eq_of_append_of_intercalate hne hps h (intercalate_splitTopLevelFrom sep s _)
  refine ⟨hfront, ?_⟩
  rw [hfront] at h
  exact List.append_cancel_left h

end Front

/-- What comes before an assignment is the first piece of a text, and has no cut. -/
theorem splitTopLevel_beforeAssignment (cs : List Char) :
    splitTopLevel '=' (beforeAssignment cs) = [beforeAssignment cs] := by
  obtain ⟨p, ps, hpieces⟩ := List.exists_cons_of_ne_nil (splitTopLevelFrom_ne_nil '=' .start cs)
  have hfirst : beforeAssignment cs = p := by
    rw [beforeAssignment, splitTopLevel, hpieces, List.headD_cons]
  rw [hfirst, splitTopLevel]
  cases ps with
  | nil =>
    -- without a cut the piece is the whole text
    have htext := intercalate_splitTopLevelFrom '=' .start cs
    rw [hpieces, List.intercalate_singleton] at htext
    rw [htext, hpieces, htext]
  | cons q ps =>
    have hfront := (splitTopLevelFrom_front (List.cons_ne_nil p [])
      (List.cons_ne_nil q ps) hpieces).1
    rwa [List.intercalate_singleton] at hfront

/-- The pieces of a text with the separator between them make it up. For each of its cuts the text
has the separator between the pieces in front of the cut and those behind it, and what is in front of
it is cut into these pieces again. So what comes before an assignment starts the text, and nothing in
it comes before another assignment. -/
theorem splitTopLevel_take (sep : Char) (cs : List Char) :
    [sep].intercalate (splitTopLevel sep cs) = cs ∧
      (∀ k, 0 < k → k < (splitTopLevel sep cs).length →
        let front := [sep].intercalate ((splitTopLevel sep cs).take k)
        cs = front ++ sep :: [sep].intercalate ((splitTopLevel sep cs).drop k) ∧
          splitTopLevel sep front = (splitTopLevel sep cs).take k) ∧
      beforeAssignment cs <+: cs ∧ beforeAssignment (beforeAssignment cs) = beforeAssignment cs := by
  refine ⟨intercalate_splitTopLevelFrom sep .start cs, ?_, beforeAssignment_isPrefix cs, ?_⟩
  · intro k hpos hlt front
    have hfront : (splitTopLevel sep cs).take k ≠ [] := by
      rw [← List.length_pos_iff, List.length_take]
      omega
    have hbehind : (splitTopLevel sep cs).drop k ≠ [] := by
      rw [← List.length_pos_iff, List.length_drop]
      omega
    have hpieces : splitTopLevelFrom sep .start cs =
        (splitTopLevel sep cs).take k ++ (splitTopLevel sep cs).drop k :=
      (List.take_append_drop k _).symm
    exact ⟨eq_append_of_splitTopLevelFrom hfront hbehind hpieces,
      (splitTopLevelFrom_front hfront hbehind hpieces).1⟩
  · rw [beforeAssignment, splitTopLevel_beforeAssignment, List.headD_cons]

/-- The second cut of a text is behind an argument list, the bracket of which an arrow has closed
before. A literal without an end follows. -/
theorem splitTopLevel_take_arrow :
    let text := "p->f(a, b), \", é".toList
    let pieces := splitTopLevel ',' text
    let front := [','].intercalate (pieces.take 2)
    0 < 2 ∧ 2 < pieces.length ∧ front = "p->f(a, b)".toList ∧ splitTopLevel ',' front = pieces.take 2 := by
  intro text pieces front
  have hlt : 2 < pieces.length := by decide
  exact ⟨by decide, hlt, by decide, ((splitTopLevel_take ',' text).2.1 2 (by decide) hlt).2⟩

end ChaiBind.Text
