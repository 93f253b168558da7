import ChaiBind.Proofs.Text.PlainText

/-!
# Words of a text

The words of a text stand between its blanks. Joined by single spaces they are the text with its
runs of blanks collapsed, which has the same characters apart from blanks. A word among them is
found in the text as a word.

* `piecesInduction`: induction over the pieces of a text.
* `words_append_cons`: a blank parts the words before it from those behind it.
* `containsWord_of_mem_words`: the words of a text are words that it contains.
-/

namespace ChaiBind.Text

/-- What holds of a text without separators, and of a text with one more piece in front if it holds
of the text, holds of every text. -/
@[elab_as_elim]
theorem piecesInduction (sep : Char → Bool) {motive : List Char → Prop}
    (last : ∀ piece, (∀ c ∈ piece, sep c = false) → motive piece)
    (cons : ∀ piece d rest, (∀ c ∈ piece, sep c = false) → sep d → motive rest →
      motive (piece ++ d :: rest))
    (cs : List Char) : motive cs := by
  suffices h : ∀ piece, (∀ c ∈ piece, sep c = false) → motive (piece ++ cs) from h [] nofun
  induction cs with
  | nil =>
    intro piece hpiece
    rw [List.append_nil]
    exact last piece hpiece
  | cons c cs ih =>
    intro piece hpiece
    by_cases hc : sep c
    · exact cons piece c cs hpiece hc (ih [] nofun)
    · have hmore : ∀ d ∈ piece ++ [c], sep d = false := by
        rw [List.forall_mem_append, List.forall_mem_singleton]
        exact ⟨hpiece, Bool.not_eq_true _ ▸ hc⟩
      have h := ih (piece ++ [c]) hmore
      rwa [List.append_assoc] at h

/-! ## Words of parts -/

theorem words_append_cons (u : List Char) {d : Char} (hd : isBlank d) (v : List Char) :
    words (u ++ d :: v) = words u ++ words v := by
  rw [words, pieces_append_sep u hd, List.filter_append, words, words]

theorem words_of_forall {w : List Char} (hne : w ≠ []) (hw : ∀ c ∈ w, isBlank c = false) :
    words w = [w] := by
  rw [words, pieces_of_forall hw, List.filter_singleton, decide_eq_true hne]
  rfl

theorem words_blank_append {blanks : List Char} (hblanks : ∀ c ∈ blanks, isBlank c)
    (v : List Char) : words (blanks ++ v) = words v := by
  induction blanks with
  | nil => rfl
  | cons d blanks ih =>
    obtain ⟨hd, hblanks⟩ := List.forall_mem_cons.1 hblanks
    exact (words_append_cons [] hd (blanks ++ v)).trans (ih hblanks)

theorem words_append_blanks {blanks : List Char} (hblanks : ∀ c ∈ blanks, isBlank c)
    (u : List Char) : words (u ++ blanks) = words u := by
  cases blanks with
  | nil => rw [List.append_nil]
  | cons d blanks =>
    obtain ⟨hd, hblanks⟩ := List.forall_mem_cons.1 hblanks
    have hnone := words_blank_append hblanks []
    rw [List.append_nil] at hnone
    rw [words_append_cons u hd, hnone]
    exact List.append_nil _

/-- The first word of a text that does not start with a blank starts with it. -/
theorem exists_words_cons {c : Char} (hc : isBlank c = false) (cs : List Char) :
    ∃ w ws, words (c :: cs) = (c :: w) :: ws := by
  obtain ⟨p, ps, hps⟩ := List.exists_cons_of_ne_nil (pieces_ne_nil isBlank cs)
  refine ⟨p, ps.filter (· ≠ []), ?_⟩
  rw [words, pieces, if_neg (by simp [hc]), hps]
  rfl

/-! ## Characters of words -/

theorem flatten_pieces (sep : Char → Bool) (cs : List Char) :
    (pieces sep cs).flatten = cs.filter (!sep ·) := by
  induction cs with
  | nil => rfl
  | cons c cs ih =>
    rw [pieces, List.filter_cons]
    split
    · rename_i hc
      rw [if_neg (by simp [hc])]
      exact ih
    · rename_i hc
      rw [if_pos (by simp [hc]), flatten_consHead, ih]

/-- The words of a text hold its characters apart from blanks. -/
theorem flatten_words (cs : List Char) : (words cs).flatten = cs.filter (!isBlank ·) := by
  have hfilter : ∀ ps : List (List Char), (ps.filter (· ≠ [])).flatten = ps.flatten := by
    intro ps
    induction ps with
    | nil => rfl
    | cons p ps ih => cases p <;> simp_all
  rw [words, hfilter, flatten_pieces]

/-- Joining parts adds separators only. -/
theorem count_intercalate {sep : List Char} {c : Char} (hc : c ∉ sep) (ps : List (List Char)) :
    (sep.intercalate ps).count c = ps.flatten.count c := by
  induction ps with
  | nil => rfl
  | cons p ps ih =>
    cases ps with
    | nil => rw [List.intercalate_singleton, List.flatten_singleton]
    | cons q qs =>
      rw [List.intercalate_cons_cons, List.count_append, List.count_append, ih,
        List.count_eq_zero.2 hc, Nat.add_zero, ← List.count_append, ← List.flatten_cons]

/-- A text with its runs of blanks collapsed has the other characters as often. -/
theorem count_intercalate_words {c : Char} (hc : isBlank c = false) (cs : List Char) :
    ([' '].intercalate (words cs)).count c = cs.count c := by
  have hspace : c ∉ [' '] := by
    rw [List.mem_singleton]
    rintro rfl
    cases hc
  rw [count_intercalate hspace, flatten_words, List.count_filter (by simp [hc])]

theorem mem_of_mem_intercalate_words {c : Char} (hc : isBlank c = false) {cs : List Char}
    (h : c ∈ [' '].intercalate (words cs)) : c ∈ cs := by
  rw [← List.count_pos_iff, count_intercalate_words hc] at h
  exact List.count_pos_iff.1 h

/-! ## Words that a text contains -/

theorem IsIdentifier.ne_nil {w : List Char} (hw : IsIdentifier w) : w ≠ [] := by
  rintro rfl
  cases hw

section

variable {w : List Char} (hw : IsIdentifier w)
include hw

/-- A blank cuts a text into two in which a name is looked for. -/
theorem containsWord_append_blank_cons {d : Char} (hd : isBlank d) (u v : List Char) :
    containsWord w (u ++ d :: v) = (containsWord w u || containsWord w v) :=
  containsWord_append_cons (notMem_of_isWord (fun _ => hw.isWord_of_mem) (isWord_eq_false_of_isBlank hd))
    (isWord_eq_false_of_isBlank hd) u v

theorem containsWord_blank_append {blanks : List Char} (hblanks : ∀ c ∈ blanks, isBlank c)
    (v : List Char) : containsWord w (blanks ++ v) = containsWord w v := by
  induction blanks with
  | nil => rfl
  | cons d blanks ih =>
    obtain ⟨hd, hblanks⟩ := List.forall_mem_cons.1 hblanks
    have hcut := containsWord_append_blank_cons hw hd [] (blanks ++ v)
    rw [containsWord_nil hw, Bool.false_or, ih hblanks] at hcut
    exact hcut

theorem containsWord_append_blank {blanks : List Char} (hblanks : ∀ c ∈ blanks, isBlank c)
    (u : List Char) : containsWord w (u ++ blanks) = containsWord w u := by
  cases blanks with
  | nil => rw [List.append_nil]
  | cons d blanks =>
    obtain ⟨hd, hblanks⟩ := List.forall_mem_cons.1 hblanks
    have hnone := containsWord_blank_append hw hblanks []
    rw [List.append_nil, containsWord_nil hw] at hnone
    rw [containsWord_append_blank_cons hw hd, hnone, Bool.or_false]

theorem containsWord_self : containsWord w w := by
  have hstart : startsWithWord w w := startsWithWord_iff.2 ⟨[], List.append_nil w, rfl⟩
  cases w with
  | nil => cases hw
  | cons c cs =>
    have hfirst : wordAt (c :: cs) none (c :: cs) = true := hstart
    rw [containsWord_eq, countFrom, hfirst]
    exact decide_eq_true (Nat.add_pos_left Nat.one_pos _)

theorem containsWord_of_mem_words {cs : List Char} (h : w ∈ words cs) : containsWord w cs := by
  induction cs using piecesInduction isBlank with
  | last piece hpiece =>
    by_cases hne : piece = []
    · subst hne
      cases h
    · rw [words_of_forall hne hpiece, List.mem_singleton] at h
      exact h ▸ containsWord_self hw
  | cons piece d rest hpiece hd ih =>
    rw [words_append_cons piece hd, List.mem_append] at h
    rw [containsWord_append_blank_cons hw hd, Bool.or_eq_true]
    rcases h with h | h
    · by_cases hne : piece = []
      · subst hne
        cases h
      · rw [words_of_forall hne hpiece, List.mem_singleton] at h
        exact .inl (h ▸ containsWord_self hw)
    · exact .inr (ih h)

end

end ChaiBind.Text
