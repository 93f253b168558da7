import ChaiBind.Proofs.Text.ContinuedLiterals

/-!
# Starts of lines

Behind a newline a scan is in code, in a block comment or in a literal whose newline a backslash
escapes (`Scan.step_newline`). In code it knows nothing of the lines before, so that what follows is
stripped as a text of its own.

* `stripPart_eq_of_getLast?`: what follows a part matters only behind a slash at its end.
* `stripComments_newline_iff`: the newlines behind which a text is stripped as a text of its own, and
  the code of a region that starts there.
-/

namespace ChaiBind.Text

namespace Scan

/-- Inside a block comment. -/
def InBlockComment : Scan → Prop
  | .blockOpening | .blockComment _ => True
  | _ => False

/-- What a scan may know behind a newline. -/
theorem step_newline (s : Scan) (next : Option Char) :
    (s.step '\n' next).2 = .start ∨ (s.step '\n' next).2.InBlockComment ∨
      (s.step '\n' next).2.InLiteral := by
  cases s with
  | code afterWord => exact .inl (by simp [step, stepCode, opensLiteral, start])
  | literal quote => exact .inl (by simp [step, start])
  | escape quote => exact .inr (.inr trivial)
  | lineComment => exact .inl rfl
  | blockOpening => exact .inr (.inl trivial)
  | blockComment star => exact .inr (.inl (by simp [step, InBlockComment]))

theorem not_inBlockComment_start : ¬ start.InBlockComment := id

theorem not_inLiteral_start : ¬ start.InLiteral := id

/-- A newline outside block comments and literals leaves nothing of what came before. -/
theorem after_newline {s : Scan} {a : List Char} {next : Option Char}
    (h : ¬ (s.after (a ++ ['\n']) next).InBlockComment ∧ ¬ (s.after (a ++ ['\n']) next).InLiteral) :
    s.after (a ++ ['\n']) next = .start := by
  rw [after_append] at h ⊢
  exact ((step_newline _ _).resolve_right (not_or.2 h))

end Scan

/-- A letter in a block comment is dropped, which is left elsewhere. -/
theorem stripFrom_inBlockComment {s : Scan} (h : s.InBlockComment) : stripFrom s ['x'] = [] := by
  cases s with
  | blockOpening => rfl
  | blockComment star => cases star <;> rfl
  | code | literal | escape | lineComment => cases h

/-- Two slashes in a literal are left, which are dropped elsewhere. -/
theorem stripFrom_inLiteral {s : Scan} (h : s.InLiteral) : stripFrom s ['/', '/'] = ['/', '/'] := by
  cases s with
  | literal quote | escape quote =>
    by_cases hquote : quote = '/'
    · subst hquote
      rfl
    · simp [stripFrom_cons, Scan.step, Ne.symm hquote, survives]
  | code | lineComment | blockOpening | blockComment => cases h

/-- What follows a part matters for it only behind a slash at its end, where it may open a comment. -/
theorem stripPart_eq_of_getLast? {u : List Char} {next : Option Char}
    (h : u.getLast? = some '/' → ¬ Scan.Opens next) (s : Scan) :
    stripPart s u next = stripPart s u none := by
  by_cases hslash : u.getLast? = some '/'
  · exact stripPart_eq_of_not_opens s u (h hslash) (by simp [Scan.Opens])
  · rcases u.eq_nil_or_concat' with rfl | ⟨u, c, rfl⟩
    · rfl
    · have hc : c ≠ '/' := by simpa using hslash
      rw [stripPart_append, stripPart_append, stripPart_cons, stripPart_cons,
        Scan.step_eq_of_ne_slash _ hc _ ([].head?.or none)]
      rfl

/-- A newline behind the text is outside block comments and literals. -/
def EndsOutside (a : List Char) : Prop :=
  ¬ (Scan.start.after (a ++ ['\n']) none).InBlockComment ∧
    ¬ (Scan.start.after (a ++ ['\n']) none).InLiteral

theorem stripComments_append_newline (a b : List Char) :
    stripComments (a ++ '\n' :: b) = stripComments (a ++ ['\n']) ++
      stripFrom (Scan.start.after (a ++ ['\n']) none) b := by
  have hline : EndsLine (a ++ ['\n']) := endsLine_append_newline a
  rw [List.append_cons, stripComments, stripFrom_append, hline.stripPart_eq .start b.head? none,
    hline.after_eq .start b.head? none, stripComments, ← stripFrom_eq_stripPart]

/-- What follows a newline is stripped as a text of its own, whatever it is, if and only if the newline
is outside block comments and literals. A region behind it then has in the text the code that it has on
its own, unless its last slash opens a comment with what follows. -/
theorem stripComments_newline_iff (a : List Char) :
    (EndsOutside a ↔
      ∀ b, stripComments (a ++ '\n' :: b) = stripComments (a ++ ['\n']) ++ stripComments b) ∧
    (EndsOutside a → ∀ region rest : List Char,
      (region.getLast? = some '/' → ¬ Scan.Opens rest.head?) →
        stripComments (a ++ '\n' :: (region ++ rest)) =
          stripComments (a ++ ['\n']) ++ stripComments region ++
            stripFrom (Scan.start.after region rest.head?) rest) := by
  have hbehind : EndsOutside a → ∀ b,
      stripComments (a ++ '\n' :: b) = stripComments (a ++ ['\n']) ++ stripComments b := by
    intro h b
    rw [stripComments_append_newline, Scan.after_newline h, ← stripComments]
  refine ⟨⟨hbehind, fun h => ⟨fun hblock => ?_, fun hliteral => ?_⟩⟩, fun h region rest hslash => ?_⟩
  · have hx := List.append_cancel_left ((stripComments_append_newline a ['x']).symm.trans (h ['x']))
    rw [stripFrom_inBlockComment hblock] at hx
    exact absurd hx (by decide)
  · have hslashes :=
      List.append_cancel_left ((stripComments_append_newline a ['/', '/']).symm.trans (h ['/', '/']))
    rw [stripFrom_inLiteral hliteral] at hslashes
    exact absurd hslashes (by decide)
  · have hregion : stripComments (region ++ rest) =
        stripComments region ++ stripFrom (Scan.start.after region rest.head?) rest := by
      rw [stripComments, stripFrom_append, stripPart_eq_of_getLast? hslash, ← stripFrom_eq_stripPart]
      rfl
    rw [hbehind h, hregion, List.append_assoc]

/-- A line that ends in a comment with a quote in it, and a region behind it that ends inside a block
comment. -/
theorem stripComments_newline_region :
    let a := "char c = '\\''; // it's\n/* \" */".toList
    let region := "void show(); /* a\n".toList
    let rest := "// */ int x;".toList
    EndsOutside a ∧ (region.getLast? = some '/' → ¬ Scan.Opens rest.head?) ∧
      stripComments (a ++ '\n' :: (region ++ rest)) =
        stripComments (a ++ ['\n']) ++ stripComments region ++
          stripFrom (Scan.start.after region rest.head?) rest := by
  intro a region rest
  have hstart : Scan.start.after (a ++ ['\n']) none = .start := by decide
  have ha : EndsOutside a := by
    rw [EndsOutside, hstart]
    exact ⟨Scan.not_inBlockComment_start, Scan.not_inLiteral_start⟩
  have hslash : region.getLast? = some '/' → ¬ Scan.Opens rest.head? := fun h => absurd h (by decide)
  exact ⟨ha, hslash, (stripComments_newline_iff a).2 ha region rest hslash⟩

end ChaiBind.Text
