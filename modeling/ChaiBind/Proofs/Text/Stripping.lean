import ChaiBind.Text.Layer
import ChaiBind.Text.Line

/-!
# Lines without comments

Stripping drops comment text and keeps every newline, so that it works line by
line: of the lines of a text and of the same text without comments, those at the
same place belong together.

* `stripFrom_cons`: what stripping does with one character.
* `sublist_of_mem_zip_inclusiveLines`: a line without comments is what is left of
  the line at its place.
-/

namespace ChaiBind.Text

@[simp] theorem stripFrom_nil (s : Scan) : stripFrom s [] = [] := rfl

theorem stripFrom_cons (s : Scan) (c : Char) (cs : List Char) :
    stripFrom s (c :: cs) =
      if survives ((s.step c cs.head?).1, c) then c :: stripFrom (s.step c cs.head?).2 cs
      else stripFrom (s.step c cs.head?).2 cs := by
  simp only [stripFrom, layersFrom, List.filter_cons]
  split <;> rfl

theorem survives_newline (layer : Layer) : survives (layer, '\n') := by simp [survives]

theorem not_survives_iff {layer : Layer} {c : Char} :
    ¬ survives (layer, c) ↔ layer = .comment ∧ c ≠ '\n' := by
  simp [survives]

/-- Of comments only newlines are left. -/
theorem eq_newline_of_survives {layer : Layer} {c : Char} (hkept : survives (layer, c))
    (hlayer : layer = .comment) : c = '\n' :=
  Decidable.byContradiction fun hc => not_survives_iff.2 ⟨hlayer, hc⟩ hkept

theorem isNewline_iff {c : Char} : isNewline c ↔ c = '\n' := by simp [isNewline]

theorem inclusiveLines_eq_nil {cs : List Char} : inclusiveLines cs = [] ↔ cs = [] := by
  refine ⟨fun h => ?_, fun h => h ▸ rfl⟩
  rw [← flatten_inclusiveLines cs, h, List.flatten_nil]

/-- A character in front of both texts keeps their lines together. -/
theorem forall_mem_zip_consHead {c : Char} {lines kept : List (List Char)}
    (hne : lines = [] → kept = []) (h : ∀ p ∈ lines.zip kept, p.2.Sublist p.1) :
    ∀ p ∈ (consHead c lines).zip (consHead c kept), p.2.Sublist p.1 := by
  cases lines with
  | nil => simp [hne rfl, consHead]
  | cons l ls =>
    cases kept with
    | nil => simp [consHead]
    | cons k ks =>
      rw [consHead, consHead, List.zip_cons_cons, List.forall_mem_cons] at *
      exact ⟨h.1.cons_cons c, h.2⟩

/-- So does a character in front of the text that keeps more. -/
theorem forall_mem_zip_consHead_left {c : Char} {lines kept : List (List Char)}
    (hne : lines = [] → kept = []) (h : ∀ p ∈ lines.zip kept, p.2.Sublist p.1) :
    ∀ p ∈ (consHead c lines).zip kept, p.2.Sublist p.1 := by
  cases lines with
  | nil => simp [hne rfl]
  | cons l ls =>
    cases kept with
    | nil => simp
    | cons k ks =>
      rw [consHead, List.zip_cons_cons, List.forall_mem_cons] at *
      exact ⟨h.1.cons c, h.2⟩

theorem sublist_of_mem_zip_inclusiveLines (s : Scan) (cs : List Char) :
    ∀ p ∈ (inclusiveLines cs).zip (inclusiveLines (stripFrom s cs)), p.2.Sublist p.1 := by
  induction cs generalizing s with
  | nil => simp [inclusiveLines]
  | cons c cs ih =>
    have ih := ih (s.step c cs.head?).2
    rw [stripFrom_cons]
    by_cases hc : isNewline c
    · obtain rfl := isNewline_iff.1 hc
      rw [if_pos (survives_newline _), inclusiveLines, inclusiveLines, if_pos hc, if_pos hc,
        List.zip_cons_cons, List.forall_mem_cons]
      exact ⟨List.Sublist.refl _, ih⟩
    · have hnil : inclusiveLines cs = [] →
          inclusiveLines (stripFrom (s.step c cs.head?).2 cs) = [] := by
        rw [inclusiveLines_eq_nil]
        rintro rfl
        rfl
      rw [inclusiveLines, if_neg hc]
      split
      · rw [inclusiveLines, if_neg hc]
        exact forall_mem_zip_consHead hnil ih
      · exact forall_mem_zip_consHead_left hnil ih

/-! ## Newlines

Every inclusive line but the last one ends with its only newline. -/

/-- As many newlines come before a line as there are lines before it. -/
theorem count_newline_of_inclusiveLines {cs line : List Char} {pre post : List (List Char)}
    (h : inclusiveLines cs = pre ++ line :: post) : pre.flatten.count '\n' = pre.length := by
  induction cs generalizing pre line with
  | nil => simp [inclusiveLines] at h
  | cons c cs ih =>
    rw [inclusiveLines] at h
    split at h
    · rename_i hc
      obtain rfl := isNewline_iff.1 hc
      cases pre with
      | nil => rfl
      | cons l pre =>
        rw [List.cons_append, List.cons.injEq] at h
        obtain ⟨rfl, h⟩ := h
        rw [List.flatten_cons, List.count_append, ih h, List.length_cons, List.count_singleton_self,
          Nat.add_comm]
    · rename_i hc
      have hne : c ≠ '\n' := fun e => hc (isNewline_iff.2 e)
      cases pre with
      | nil => rfl
      | cons l pre =>
        cases hls : inclusiveLines cs with
        | nil =>
          rw [hls] at h
          simp [consHead] at h
        | cons k ks =>
          rw [hls, consHead, List.cons_append, List.cons.injEq] at h
          obtain ⟨rfl, h⟩ := h
          have hk : k :: ks = (k :: pre) ++ line :: post := congrArg (k :: ·) h
          rw [List.flatten_cons, List.cons_append, List.count_cons_of_ne hne]
          exact ih (hls.trans hk)

theorem newline_notMem_dropLast {cs line : List Char} (h : line ∈ inclusiveLines cs) :
    '\n' ∉ line.dropLast := by
  induction cs generalizing line with
  | nil => simp [inclusiveLines] at h
  | cons c cs ih =>
    rw [inclusiveLines] at h
    split at h
    · rcases List.mem_cons.1 h with rfl | h
      · simp
      · exact ih h
    · rename_i hc
      have hne : '\n' ≠ c := fun e => hc (isNewline_iff.2 e.symm)
      cases hls : inclusiveLines cs with
      | nil =>
        rw [hls, consHead, List.mem_singleton] at h
        simp [h]
      | cons k ks =>
        rw [hls, consHead, List.mem_cons] at h
        rw [hls] at ih
        rcases h with rfl | h
        · have hk := ih List.mem_cons_self
          cases k with
          | nil => simp
          | cons d ds => simpa [hne] using hk
        · exact ih (List.mem_cons_of_mem k h)

/-- What is blank at the start of a line that says something holds no newline. -/
theorem newline_notMem_leadingBlank {line : List Char} (h : '\n' ∉ line.dropLast) {c : Char}
    (hc : c ∈ line) (hblank : ¬ isBlank c) : '\n' ∉ leadingBlank line := by
  induction line with
  | nil => cases hc
  | cons d ds ih =>
    rw [leadingBlank, List.takeWhile_cons]
    split
    · rename_i hd
      have hmem : c ∈ ds := (List.mem_cons.1 hc).resolve_left fun e => hblank (e ▸ hd)
      rw [List.dropLast_cons_of_ne_nil (List.ne_nil_of_mem hmem), List.mem_cons, not_or] at h
      rw [List.mem_cons, not_or]
      exact ⟨h.1, ih h.2 hmem⟩
    · exact List.not_mem_nil

end ChaiBind.Text
