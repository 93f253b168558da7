import ChaiBind.Proofs.Text.LineEndings

/-!
# Literals that go on over a newline

A literal ends at a newline unless a backslash comes right before that. In a text without comments a
line that starts with two slashes is therefore part of such a literal, and stands in the text itself
right behind a backslash and a newline (`isInfix_of_stripComments`).
-/

namespace ChaiBind.Text

namespace Scan

/-- Inside a literal. -/
def InLiteral : Scan → Prop
  | .literal _ | .escape _ => True
  | _ => False

theorem InLiteral.layer_ne_comment {s : Scan} (h : s.InLiteral) (c : Char)
    (next : Option Char) : (s.step c next).1 ≠ .comment := by
  have hstep := s.steps_step c next
  generalize s.step c next = x at hstep ⊢
  cases hstep with
  | escapes | breaksLiteral | closesLiteral | literal | escaped => exact nofun
  | _ => cases h

/-- A literal stands in one of the two kinds of quotes. -/
def WellQuoted : Scan → Prop
  | .literal quote | .escape quote => quote = '"' ∨ quote = '\''
  | _ => True

theorem WellQuoted.step {s : Scan} (h : s.WellQuoted) (c : Char) (next : Option Char) :
    (s.step c next).2.WellQuoted := by
  have hstep := s.steps_step c next
  generalize s.step c next = x at hstep ⊢
  cases hstep with
  | opensLiteral hopens =>
    simp only [Scan.opensLiteral, Bool.or_eq_true, Bool.and_eq_true, decide_eq_true_eq] at hopens
    exact hopens.imp_right And.left
  | escapes | literal | escaped => exact h
  | _ => trivial

theorem WellQuoted.after {s : Scan} (h : s.WellQuoted) (cs : List Char) (next : Option Char) :
    (s.after cs next).WellQuoted := by
  induction cs generalizing s with
  | nil => exact h
  | cons c cs ih => exact ih (h.step c _)

/-- Behind an escaped character there is still the literal; outside an escape a newline ends it. -/
theorem not_inLiteral_step_newline {s : Scan} (h : ∀ quote, s ≠ .escape quote) (next : Option Char) :
    ¬ (s.step '\n' next).2.InLiteral := by
  cases s with
  | escape quote => exact absurd rfl (h quote)
  | code | literal | lineComment | blockOpening | blockComment =>
    simp [Scan.step, stepCode, opensLiteral, InLiteral]

theorem exists_of_after_eq_escape {u : List Char} {next : Option Char} {quote : Char}
    (h : Scan.start.after u next = .escape quote) : ∃ u', u = u' ++ ['\\'] := by
  rcases u.eq_nil_or_concat' with rfl | ⟨u, c, rfl⟩
  · cases h
  · rw [after_append] at h
    exact ⟨u, by rw [(eq_of_step_eq_escape h).1]⟩

end Scan

/-- Where a newline of a text without comments stands in the text. -/
theorem exists_of_stripFrom_eq {s : Scan} {cs x y : List Char}
    (h : stripFrom s cs = x ++ '\n' :: y) :
    ∃ u v, cs = u ++ '\n' :: v ∧
      stripFrom ((s.after u (some '\n')).step '\n' v.head?).2 v = y := by
  rw [stripFrom_eq_stripPart] at h
  obtain ⟨u, v, hcs, -, hy⟩ := exists_of_stripPart_eq h
  rw [Option.or_none, ← stripFrom_eq_stripPart] at hy
  exact ⟨u, v, hcs, hy⟩

/-- In code only a slash can be dropped. -/
theorem exists_stripFrom_code {c : Char} (hc : c ≠ '/') (afterWord : Bool) (cs : List Char) :
    ∃ s, stripFrom (.code afterWord) (c :: cs) = c :: stripFrom s cs := by
  rw [stripFrom_cons]
  simp only [Scan.step, Scan.stepCode, hc, decide_false, Bool.false_and]
  split <;> exact ⟨_, rfl⟩

/-- No newline or quote stands in front of two slashes behind blanks. -/
theorem ne_of_cons_eq_spaces {spaces rest cs : List Char} {c : Char}
    (hspaces : ∀ c ∈ spaces, isSpaceOrTab c) (h : c :: cs = spaces ++ '/' :: '/' :: rest) :
    c ≠ '\n' ∧ c ≠ '"' ∧ c ≠ '\'' := by
  cases spaces with
  | nil =>
    obtain ⟨rfl, -⟩ := List.cons.inj h
    decide
  | cons x spaces =>
    obtain ⟨rfl, -⟩ := List.cons.inj h
    have hspace := hspaces c List.mem_cons_self
    simp only [isSpaceOrTab, Bool.or_eq_true, decide_eq_true_eq] at hspace
    rcases hspace with rfl | rfl <;> decide

/-- Outside a literal two slashes start a comment, which does not stay. -/
theorem stripFrom_ne_of_not_inLiteral {s : Scan} (hs : ¬ s.InLiteral) {spaces : List Char}
    (hspaces : ∀ c ∈ spaces, isSpaceOrTab c) (cs rest : List Char) :
    stripFrom s cs ≠ spaces ++ '/' :: '/' :: rest := by
  induction cs generalizing s spaces with
  | nil => simp
  | cons c cs ih =>
    intro h
    rw [stripFrom_cons] at h
    have hstep := s.steps_step c cs.head?
    generalize s.step c cs.head? = x at h hstep
    cases hstep with
    | opensLiteral hopens =>
      obtain ⟨-, hquote, hquote'⟩ := ne_of_cons_eq_spaces hspaces h
      simp [Scan.opensLiteral, hquote, hquote'] at hopens
    | endsLine hc =>
      subst hc
      exact (ne_of_cons_eq_spaces hspaces h).1 rfl
    | opensLine | opensBlock | lineComment | blockOpening | closesBlock | blockComment =>
      -- what is dropped leaves the same to be found behind it, outside a literal again
      split at h
      · rename_i hsurvives
        exact (ne_of_cons_eq_spaces hspaces h).1 (eq_newline_of_survives hsurvives rfl)
      · exact ih id hspaces h
    | @code afterWord hliteral hcomment =>
      cases spaces with
      | cons x spaces =>
        exact ih id (fun c hc => hspaces c (List.mem_cons_of_mem x hc)) (List.cons.inj h).2
      | nil =>
        -- a slash that stays is followed by something that stays too and is no slash
        obtain ⟨rfl, h⟩ := List.cons.inj h
        cases cs with
        | nil => cases h
        | cons d ds =>
          have hd : d ≠ '/' := by
            rintro rfl
            exact hcomment rfl (.inl rfl)
          obtain ⟨s, hs⟩ := exists_stripFrom_code hd (Char.isAlphanum '/') ds
          rw [hs] at h
          exact hd (List.cons.inj h).1
    | _ => exact hs trivial

/-- A literal stays as it is up to the end of its line, or to its quote. -/
theorem exists_of_stripFrom_literal {quote : Char} {line cs rest : List Char}
    (hline : ∀ c ∈ line, c ≠ '\\' ∧ c ≠ quote ∧ c ≠ '\n')
    (h : stripFrom (.literal quote) cs = line ++ '\n' :: rest) : ∃ v, cs = line ++ '\n' :: v := by
  have hfirst : ∀ {c : Char} {cs ds : List Char}, stripFrom (.literal quote) cs = c :: ds →
      ∃ cs', cs = c :: cs' ∧ stripFrom ((Scan.literal quote).step c cs'.head?).2 cs' = ds := by
    intro c cs ds h
    cases cs with
    | nil => cases h
    | cons d cs =>
      have hsurvives : survives (((Scan.literal quote).step d cs.head?).1, d) := by
        by_contra hdropped
        exact Scan.InLiteral.layer_ne_comment (s := .literal quote) trivial d _
          (not_survives_iff.1 hdropped).1
      rw [stripFrom_cons, if_pos hsurvives] at h
      obtain ⟨rfl, hds⟩ := List.cons.inj h
      exact ⟨cs, rfl, hds⟩
  induction line generalizing cs with
  | nil =>
    obtain ⟨v, rfl, -⟩ := hfirst h
    exact ⟨v, rfl⟩
  | cons c line ih =>
    obtain ⟨⟨hslash, hquote, hnewline⟩, hline⟩ := List.forall_mem_cons.1 hline
    obtain ⟨cs, rfl, htail⟩ := hfirst h
    simp only [Scan.step, if_neg hslash, if_neg hnewline, if_neg hquote] at htail
    obtain ⟨v, rfl⟩ := ih hline htail
    exact ⟨v, rfl⟩

/-- A line of a text without comments that starts with two slashes stands in the text behind a
newline that a backslash escapes. -/
theorem isInfix_of_stripComments {cs spaces rest : List Char}
    (hspaces : ∀ c ∈ spaces, isSpaceOrTab c)
    (hline : ∀ c ∈ spaces ++ '/' :: '/' :: rest, c ≠ '\\' ∧ c ≠ '"' ∧ c ≠ '\'' ∧ c ≠ '\n')
    (h : '\n' :: (spaces ++ '/' :: '/' :: rest ++ ['\n']) <:+: stripComments cs) :
    '\\' :: '\n' :: (spaces ++ '/' :: '/' :: rest ++ ['\n']) <:+: cs := by
  obtain ⟨x, y, htext⟩ := h
  rw [List.append_assoc, List.cons_append, List.append_assoc, List.singleton_append] at htext
  obtain ⟨u, v, rfl, hrest⟩ := exists_of_stripFrom_eq htext.symm
  by_cases hescape : ∃ quote, Scan.start.after u (some '\n') = .escape quote
  · obtain ⟨quote, hescape⟩ := hescape
    obtain ⟨u, rfl⟩ := Scan.exists_of_after_eq_escape hescape
    have hquoted : (Scan.start.after (u ++ ['\\']) (some '\n')).WellQuoted :=
      Scan.WellQuoted.after (s := .start) trivial _ _
    rw [hescape] at hrest hquoted
    obtain ⟨v, rfl⟩ := exists_of_stripFrom_literal (fun c hc => by
      obtain ⟨hslash, hdouble, hsingle, hnewline⟩ := hline c hc
      refine ⟨hslash, ?_, hnewline⟩
      rcases hquoted with rfl | rfl
      · exact hdouble
      · exact hsingle) hrest
    exact ⟨u, v, by simp⟩
  · rw [List.append_assoc, List.cons_append, List.cons_append] at hrest
    exact absurd hrest (stripFrom_ne_of_not_inLiteral
      (Scan.not_inLiteral_step_newline (fun quote h => hescape ⟨quote, h⟩) _) hspaces _ _)

end ChaiBind.Text
