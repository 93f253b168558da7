import ChaiBind.Proofs.Text.InlineComments

/-!
# Stripping twice

Each character that is left of a text without comments is read among what is left as it was read in
the text: code stays code and starts no comment, and a literal stays a literal (`Scan.Keeps.run`).
Only a single quote may be read in another way. It opens a literal in the text, and separates digits
in what is left, if comments on one line are all that stands between it and an ASCII letter or digit
(`JoinsQuote`).

* `layers_stripComments_iff`: without such a quote, and only then, every character that is left keeps
  its layer, and stripping again leaves it all.
-/

namespace ChaiBind.Text

/-! ## Words and quotes -/

/-- The text ends in comments on one line that stand between an ASCII letter or digit of the code
and what follows. -/
def HidesWord (front : List Char) : Prop :=
  ∃ code c comments, front = code ++ c :: comments ∧
    (∃ afterWord, Scan.start.after code (some c) = .code afterWord) ∧ c.isAlphanum ∧
    BlockComments comments ∧ comments ≠ []

/-- A single quote comes right behind an ASCII letter or digit once the comments between them are
gone. -/
def JoinsQuote (cs : List Char) : Prop :=
  ∃ front behind, cs = front ++ '\'' :: behind ∧ HidesWord front

theorem not_joinsQuote_of_notMem {cs : List Char} (h : '\'' ∉ cs) : ¬ JoinsQuote cs := by
  rintro ⟨front, behind, rfl, -⟩
  exact h (List.mem_append_right front List.mem_cons_self)

theorem JoinsQuote.append {u : List Char} (h : JoinsQuote u) (v : List Char) :
    JoinsQuote (u ++ v) := by
  obtain ⟨front, behind, rfl, hides⟩ := h
  exact ⟨front, behind ++ v, by rw [List.append_assoc, List.cons_append], hides⟩

/-- Of the quotes that come behind a word one is the first. -/
theorem JoinsQuote.exists_first {cs : List Char} (h : JoinsQuote cs) :
    ∃ front behind, cs = front ++ '\'' :: behind ∧ HidesWord front ∧ ¬ JoinsQuote front := by
  induction hn : cs.length using Nat.strongRecOn generalizing cs with
  | ind n ih =>
    obtain ⟨front, behind, rfl, hides⟩ := h
    by_cases hfront : JoinsQuote front
    · have hlt : front.length < n := by
        rw [← hn, List.length_append, List.length_cons]
        omega
      obtain ⟨first, between, rfl, hfirst⟩ := ih _ hlt hfront rfl
      exact ⟨first, between ++ '\'' :: behind, by rw [List.append_assoc, List.cons_append], hfirst⟩
    · exact ⟨front, behind, rfl, hides, hfront⟩

/-! ## The scan of what is left -/

/-- Where a character belongs once the comments are gone: of them only newlines are left, as code. -/
def Layer.settled : Layer → Layer
  | .comment => .code
  | layer => layer

theorem Layer.settled_of_ne {layer : Layer} (h : layer ≠ .comment) : layer.settled = layer := by
  cases layer with
  | comment => exact absurd rfl h
  | code | literal => rfl

/-- The characters that are left without comments, in the layers they have in the text. -/
def keptLayers (xs : List (Layer × Char)) : List (Layer × Char) :=
  (xs.filter survives).map fun x => (x.1.settled, x.2)

theorem keptLayers_append (xs ys : List (Layer × Char)) :
    keptLayers (xs ++ ys) = keptLayers xs ++ keptLayers ys := by
  rw [keptLayers, List.filter_append, List.map_append, keptLayers, keptLayers]

namespace Scan

/-- Inside a comment. -/
def InComment : Scan → Prop
  | .lineComment | .blockOpening | .blockComment _ => True
  | _ => False

/-- A slash that is left of the code opens no comment. -/
theorem not_opens_of_survives {afterWord : Bool} {next : Option Char}
    (hkept : survives (((Scan.code afterWord).step '/' next).1, '/')) : ¬ Opens next :=
  fun hopens => absurd
    (eq_newline_of_survives hkept (step_code_eq_comment_iff.2 ⟨rfl, hopens⟩)) (by decide)

/-- How the scan of what is left, `t`, stands to the scan of the text, `s`: it is in code where that
is in a comment, and never forgets a letter or digit. -/
inductive Keeps : Scan → Scan → Prop
  | code {afterWord afterWord' : Bool} (h : afterWord → afterWord') :
      Keeps (.code afterWord) (.code afterWord')
  | comment {s : Scan} (hs : s.InComment) (afterWord : Bool) : Keeps s (.code afterWord)
  | literal {s : Scan} (hs : s.InLiteral) : Keeps s s

/-- A single quote that comes next opens a literal in the text, but separates digits in what is
left. -/
def JoinsAt (s t : Scan) (front : List Char) : Prop :=
  s.after front (some '\'') = .code false ∧
    t.after (stripPart s front (some '\'')) (some '\'') = .code true

/-- A comment holds on or ends in code, and only its newlines are left, as code. -/
theorem InComment.step {s : Scan} (h : s.InComment) (c : Char) (next : Option Char) :
    (s.step c next).1.settled = .code ∧ ((s.step c next).1 = .comment ∨ c = '\n') ∧
      ((s.step c next).2.InComment ∨ (s.step c next).2 = .start) := by
  have hstep := s.steps_step c next
  generalize s.step c next = x at hstep ⊢
  cases hstep with
  | endsLine hc => exact ⟨rfl, .inr hc, .inr rfl⟩
  | closesBlock => exact ⟨rfl, .inl rfl, .inr rfl⟩
  | lineComment | blockOpening | blockComment => exact ⟨rfl, .inl rfl, .inl trivial⟩
  | _ => cases h

theorem InComment.keeps {s : Scan} (h : s.InComment ∨ s = .start) (afterWord : Bool) :
    s.Keeps (.code afterWord) := by
  rcases h with hs | rfl
  · exact .comment hs afterWord
  · exact .code nofun

/-- A literal holds on or ends in code. -/
theorem InLiteral.keeps_step {s : Scan} (h : s.InLiteral) (c : Char) (next next' : Option Char) :
    s.step c next' = s.step c next ∧ (s.step c next).2.Keeps (s.step c next).2 := by
  constructor
  · cases s with
    | literal | escape => rfl
    | code | lineComment | blockOpening | blockComment => cases h
  · have hstep := s.steps_step c next
    generalize s.step c next = x at hstep ⊢
    cases hstep with
    | escapes | literal | escaped => exact .literal trivial
    | breaksLiteral | closesLiteral => exact .code id
    | _ => cases h

theorem Keeps.exists_code {afterWord : Bool} {t : Scan} (h : (Scan.code afterWord).Keeps t) :
    ∃ afterWord', t = .code afterWord' := by
  cases h with
  | code => exact ⟨_, rfl⟩
  | comment hs | literal hs => cases hs

namespace Keeps

variable {s t : Scan} (h : s.Keeps t)
include h

theorem step_of_dropped {c : Char} {next : Option Char}
    (hdropped : ¬ survives ((s.step c next).1, c)) : (s.step c next).2.Keeps t := by
  have hcomment := (not_survives_iff.1 hdropped).1
  cases h with
  | code =>
    obtain ⟨rfl, rfl | rfl⟩ := step_code_eq_comment_iff.1 hcomment
    · exact .comment (s := .lineComment) trivial _
    · exact .comment (s := .blockOpening) trivial _
  | comment hs => exact InComment.keeps (hs.step c next).2.2 _
  | literal hs => exact absurd hcomment (hs.layer_ne_comment c next)

/-- A character that is left is read as in the text, unless it is a quote joined to a word. -/
theorem step_of_survives {c : Char} {next next' : Option Char} (hjoin : c = '\'' → ¬ s.JoinsAt t [])
    (hslash : ∀ afterWord, s = .code afterWord → c = '/' → ¬ Opens next')
    (hkept : survives ((s.step c next).1, c)) :
    (t.step c next').1 = (s.step c next).1.settled ∧ (s.step c next).2.Keeps (t.step c next').2 := by
  cases h with
  | literal hs =>
    obtain ⟨hstep, hkeeps⟩ := hs.keeps_step c next next'
    rw [hstep]
    exact ⟨(Layer.settled_of_ne (hs.layer_ne_comment c next)).symm, hkeeps⟩
  | comment hs =>
    obtain ⟨hsettled, hcomment, hafter⟩ := hs.step c next
    obtain rfl : c = '\n' := hcomment.elim (eq_newline_of_survives hkept) id
    exact ⟨hsettled.symm, InComment.keeps hafter _⟩
  | @code afterWord afterWord' hword =>
    have hsame : opensLiteral afterWord' c = opensLiteral afterWord c := by
      by_cases hc : c = '\''
      · -- A quote tells the two apart only behind a word of what is left.
        have hback : afterWord' → afterWord := by
          intro hword'
          rw [← Bool.not_eq_false]
          rintro rfl
          exact hjoin hc ⟨rfl, congrArg Scan.code hword'⟩
        rw [Bool.eq_iff_iff.2 ⟨hback, hword⟩]
      · simp [opensLiteral, hc]
    by_cases hopens : opensLiteral afterWord c
    · simp only [step, stepCode, if_pos hopens, if_pos (hsame.trans hopens)]
      exact ⟨rfl, .literal trivial⟩
    · rw [Bool.not_eq_true] at hopens
      have hnext : c = '/' → ¬ Opens next := by
        rintro rfl
        exact not_opens_of_survives hkept
      rw [step_code hopens hnext, step_code (hsame.trans hopens) (hslash _ rfl)]
      exact ⟨rfl, .code id⟩

end Keeps

/-- What is left behind a slash in code opens no comment with it where the text does not. -/
theorem not_opens_stripPart {afterWord : Bool} {cs : List Char} {next : Option Char}
    (h : ¬ Opens (cs.head?.or next)) :
    ¬ Opens ((stripPart (.code afterWord) cs next).head?.or next) := by
  cases cs with
  | nil => exact h
  | cons c cs =>
    have hslash : c ≠ '/' := by
      rintro rfl
      exact h (.inl rfl)
    have hkept : survives (((Scan.code afterWord).step c (cs.head?.or next)).1, c) := by
      by_contra hdropped
      exact hslash (step_code_eq_comment_iff.1 (not_survives_iff.1 hdropped).1).1
    rwa [stripPart_cons, if_pos hkept]

theorem head?_append_quote (front behind : List Char) (next : Option Char) :
    (front ++ '\'' :: behind).head?.or next = front.head?.or (some '\'') := by
  rw [List.head?_append, List.head?_cons, Option.or_assoc, Option.some_or]

/-- What is left in front of a quote that opens a literal is followed by this quote. -/
theorem head?_stripPart_append {s : Scan} {front behind : List Char} {next : Option Char}
    (h : s.after front (some '\'') = .code false) :
    (stripPart s (front ++ '\'' :: behind) next).head?.or next =
      (stripPart s front (some '\'')).head?.or (some '\'') := by
  have hquote : stripPart (.code false) ('\'' :: behind) next =
      '\'' :: stripPart (.literal '\'') behind next := rfl
  rw [stripPart_append, List.head?_cons, Option.some_or, h, hquote, head?_append_quote]

/-- Whether a quote is joined to a word behind a character that is left, or dropped. -/
theorem joinsAt_cons {s t : Scan} {c : Char} {front : List Char} :
    s.JoinsAt t (c :: front) ↔
      let x := s.step c (front.head?.or (some '\''))
      let y := t.step c ((stripPart x.2 front (some '\'')).head?.or (some '\''))
      if survives (x.1, c) then x.2.JoinsAt y.2 front else x.2.JoinsAt t front := by
  rw [JoinsAt, after_cons, stripPart_cons]
  split
  · rename_i hkept
    simp only [if_pos hkept, after_cons, JoinsAt]
  · rename_i hdropped
    simp only [if_neg hdropped, JoinsAt]

/-- Up to a quote that is joined to a word, what is left of a part is scanned as the part is. -/
theorem Keeps.run {s t : Scan} (h : s.Keeps t) {u : List Char} {next : Option Char}
    (hjoin : ∀ front behind, u = front ++ '\'' :: behind → ¬ s.JoinsAt t front) :
    layersPart t (stripPart s u next) next = keptLayers (layersPart s u next) ∧
      (s.after u next).Keeps (t.after (stripPart s u next) next) := by
  induction u generalizing s t with
  | nil => exact ⟨rfl, h⟩
  | cons c u ih =>
    rw [stripPart_cons, layersPart_cons, after_cons, keptLayers, List.filter_cons]
    split
    · rename_i hkept
      have hfirst : c = '\'' → ¬ s.JoinsAt t [] := by
        rintro rfl
        exact hjoin [] u rfl
      -- only at a slash in code what follows matters, and behind one that is left that is left too
      have hslash : ∀ afterWord, s = .code afterWord → c = '/' →
          ¬ Opens ((stripPart (s.step c (u.head?.or next)).2 u next).head?.or next) := by
        rintro afterWord rfl rfl
        have hnot : ¬ Opens (u.head?.or next) := not_opens_of_survives hkept
        rw [step_code (opensLiteral_eq_false (by decide) _) fun _ => hnot]
        exact not_opens_stripPart hnot
      obtain ⟨hlayer, hkeeps⟩ := h.step_of_survives hfirst hslash hkept
      obtain ⟨hlayers, hafter⟩ := ih hkeeps (by
        rintro front behind rfl hjoins
        rw [head?_append_quote] at hkept hjoins
        rw [head?_stripPart_append hjoins.1] at hjoins
        refine hjoin (c :: front) behind rfl (joinsAt_cons.2 ?_)
        rwa [if_pos hkept])
      rw [layersPart_cons, after_cons, hlayer, hlayers]
      exact ⟨rfl, hafter⟩
    · rename_i hdropped
      refine ih (h.step_of_dropped hdropped) ?_
      rintro front behind rfl hjoins
      rw [head?_append_quote] at hdropped hjoins
      refine hjoin (c :: front) behind rfl (joinsAt_cons.2 ?_)
      rwa [if_neg hdropped]

/-- A word is only right before in code, behind a letter or digit. -/
theorem isAlphanum_of_step_eq_code {s : Scan} {c : Char} {next : Option Char}
    (h : (s.step c next).2 = .code true) : c.isAlphanum := by
  have hstep := s.steps_step c next
  generalize s.step c next = x at h hstep
  cases hstep with
  | code => exact Scan.code.inj h
  | _ => cases h

theorem exists_of_after_eq_code {cs : List Char} {next : Option Char}
    (h : start.after cs next = .code true) : ∃ front c, cs = front ++ [c] ∧ c.isAlphanum := by
  rcases cs.eq_nil_or_concat' with rfl | ⟨front, c, rfl⟩
  · cases h
  · rw [after_append] at h
    exact ⟨front, c, rfl, isAlphanum_of_step_eq_code h⟩

/-- A letter or digit of the code is left, with code behind it. -/
theorem step_code_alphanum {c : Char} (hc : c.isAlphanum) (afterWord : Bool) (next : Option Char) :
    (Scan.code afterWord).step c next = (.code, .code true) := by
  have hliteral : opensLiteral afterWord c = false := by
    refine opensLiteral_eq_false ⟨?_, ?_⟩ afterWord <;> rintro rfl <;> cases hc
  rw [step_code hliteral fun hslash => absurd hc (hslash ▸ by decide), hc]

theorem InLiteral.step_alphanum {s : Scan} (h : s.InLiteral) (hquoted : s.WellQuoted) {c : Char}
    (hc : c.isAlphanum) (next : Option Char) : (s.step c next).2.InLiteral := by
  cases s with
  | literal quote =>
    have hne : c ≠ '\\' ∧ c ≠ '\n' ∧ c ≠ quote := by
      refine ⟨?_, ?_, ?_⟩
      · rintro rfl
        cases hc
      · rintro rfl
        cases hc
      · rintro rfl
        rcases hquoted with rfl | rfl <;> cases hc
    rw [step, if_neg hne.1, if_neg hne.2.1, if_neg hne.2.2]
    trivial
  | escape quote => trivial
  | code | lineComment | blockOpening | blockComment => cases h

theorem code_or (s : Scan) : (∃ afterWord, s = .code afterWord) ∨ s.InLiteral ∨ s.InComment := by
  cases s with
  | code afterWord => exact .inl ⟨afterWord, rfl⟩
  | literal | escape => exact .inr (.inl trivial)
  | lineComment | blockOpening | blockComment => exact .inr (.inr trivial)

/-- A quote is joined to a word behind comments on one line. -/
theorem JoinsAt.hidesWord {front : List Char} (h : start.JoinsAt start front) : HidesWord front := by
  obtain ⟨hs, ht⟩ := h
  -- the letter or digit is the last of what is left, so that nothing is left of what is behind it
  obtain ⟨kept, c, hkept, hc⟩ := exists_of_after_eq_code ht
  obtain ⟨u, x, rfl, hsurvives, hdropped⟩ := exists_of_stripPart_eq hkept
  rw [after_append, List.head?_cons, Option.some_or, after_cons] at hs
  rcases (start.after u (some c)).code_or with ⟨afterWord, hcode⟩ | hliteral | hcomment
  · rw [hcode, step_code_alphanum hc] at hs hdropped
    have hne : x ≠ [] := by
      rintro rfl
      cases hs
    refine ⟨u, c, x, rfl, ⟨afterWord, hcode⟩, hc, ?_, hne⟩
    exact blockComments_of_dropped (by simp [Opens]) hdropped hs
  · have hquoted : (start.after u (some c)).WellQuoted := WellQuoted.after (s := .start) trivial _ _
    have hinside := hliteral.step_alphanum hquoted hc (x.head?.or (some '\''))
    obtain rfl := eq_nil_of_literal_dropped hinside hdropped
    rw [after, List.head?_nil, Option.none_or] at hs
    rw [List.head?_nil, Option.none_or, hs] at hinside
    cases hinside
  · obtain ⟨-, hlayer, -⟩ := hcomment.step c (x.head?.or (some '\''))
    obtain rfl : c = '\n' := hlayer.elim (eq_newline_of_survives hsurvives) id
    cases hc

end Scan

/-! ## Stripping again -/

open Scan

/-- What is left of a part that joins no quote is scanned as the part is. -/
theorem keeps_of_not_joinsQuote {cs : List Char} (h : ¬ JoinsQuote cs) (next : Option Char) :
    layersPart .start (stripPart .start cs next) next = keptLayers (layersPart .start cs next) ∧
      (start.after cs next).Keeps (start.after (stripPart .start cs next) next) := by
  refine Keeps.run (.code id) fun front behind hcs hjoins => ?_
  exact h ⟨front, behind, hcs, hjoins.hidesWord⟩

/-- What is left is left again where it is scanned as the text is. -/
theorem stripPart_stripPart {s t : Scan} {cs : List Char} {next : Option Char}
    (h : layersPart t (stripPart s cs next) next = keptLayers (layersPart s cs next)) :
    stripPart t (stripPart s cs next) next = stripPart s cs next := by
  have hsurvive : ∀ x ∈ keptLayers (layersPart s cs next), survives x := by
    rw [keptLayers, List.forall_mem_map]
    rintro ⟨layer, c⟩ -
    cases layer <;> rfl
  rw [stripPart_eq_map_filter t, h, List.filter_eq_self.2 hsurvive, keptLayers, List.map_map,
    stripPart_eq_map_filter s]
  rfl

/-- Comments that hide a word join it to a single quote. -/
theorem HidesWord.joinsAt {front : List Char} (h : HidesWord front) (hjoin : ¬ JoinsQuote front) :
    start.JoinsAt start front := by
  obtain ⟨code, c, comments, rfl, ⟨afterWord, hcode⟩, hc, hcomments, hne⟩ := h
  obtain ⟨hafter, hstrip⟩ := hcomments.scan_code hne true (some '\'')
  have hkeeps := (keeps_of_not_joinsQuote (fun h => hjoin (JoinsQuote.append h (c :: comments)))
    (some c)).2
  rw [hcode] at hkeeps
  obtain ⟨afterWord', hword⟩ := hkeeps.exists_code
  refine ⟨?_, ?_⟩
  · rw [after_append, List.head?_cons, Option.some_or, hcode, after_cons, step_code_alphanum hc]
    exact hafter
  · rw [stripPart_append, List.head?_cons, Option.some_or, hcode, stripPart_cons,
      step_code_alphanum hc, if_pos (by rfl), hstrip, after_append, List.head?_cons, Option.some_or,
      hword, after_cons, step_code_alphanum hc]
    rfl

/-- What is left of a text that joins a quote to a word, and what is left of that. -/
theorem stripComments_joined {front : List Char} (h : HidesWord front)
    (hjoin : ¬ JoinsQuote front) (behind : List Char) :
    let literal := stripFrom (.literal '\'') behind
    let text := stripComments (front ++ '\'' :: behind)
    text = stripPart .start front (some '\'') ++ '\'' :: literal ∧
      stripComments text = stripPart .start front (some '\'') ++ '\'' :: stripComments literal ∧
      layers text ≠ keptLayers (layers (front ++ '\'' :: behind)) := by
  intro literal text
  obtain ⟨hs, ht⟩ := h.joinsAt hjoin
  obtain ⟨hlayers, -⟩ := keeps_of_not_joinsQuote hjoin (some '\'')
  have htext : text = stripPart .start front (some '\'') ++ '\'' :: literal := by
    show stripFrom .start (front ++ '\'' :: behind) = _
    rw [stripFrom_append, List.head?_cons, hs]
    rfl
  refine ⟨htext, ?_, ?_⟩
  · rw [htext, stripComments, stripFrom_append, List.head?_cons, stripPart_stripPart hlayers, ht]
    rfl
  · rw [htext, layers, layers, layersFrom_append, layersFrom_append, List.head?_cons,
      List.head?_cons, hs, ht, hlayers, keptLayers_append]
    intro hsame
    obtain ⟨hquote, -⟩ := List.cons.inj (List.append_cancel_left hsame)
    cases hquote

/-- What is left of a text without comments keeps its layers, so that none of it is a comment, and
is left by stripping again, if and only if the text joins no single quote to a word. If it does,
what is left is left again if and only if the literal behind the first such quote and all that
follows it stay as they are when they are stripped as code. -/
theorem layers_stripComments_iff (cs : List Char) :
    (layers (stripComments cs) = keptLayers (layers cs) ∧
        stripComments (stripComments cs) = stripComments cs ↔ ¬ JoinsQuote cs) ∧
      ∀ front behind, cs = front ++ '\'' :: behind → HidesWord front → ¬ JoinsQuote front →
        (stripComments (stripComments cs) = stripComments cs ↔
          stripComments (stripFrom (.literal '\'') behind) = stripFrom (.literal '\'') behind) := by
  refine ⟨⟨?_, fun hjoin => ?_⟩, ?_⟩
  · rintro ⟨hlayers, -⟩ hjoin
    obtain ⟨front, behind, rfl, hides, hfirst⟩ := hjoin.exists_first
    exact (stripComments_joined hides hfirst behind).2.2 hlayers
  · obtain ⟨hlayers, -⟩ := keeps_of_not_joinsQuote hjoin none
    have hagain := stripPart_stripPart hlayers
    simp only [← layersFrom_eq_layersPart, ← stripFrom_eq_stripPart] at hlayers hagain
    exact ⟨hlayers, hagain⟩
  · rintro front behind rfl hides hfirst
    obtain ⟨htext, hagain, -⟩ := stripComments_joined hides hfirst behind
    rw [hagain, htext, List.append_cancel_left_eq, List.cons.injEq]
    exact and_iff_right rfl

/-- A literal behind a word and a comment is stripped as code at the second time, and what starts with
two slashes in it is taken for a comment. The literals of a line with a comment between a blank and a
quote join no word. -/
theorem layers_stripComments_iff_case :
    let front := "case/**/".toList
    let behind := "//':".toList
    let line := "f(1'000 /**/'/', \"/*\"); // g".toList
    HidesWord front ∧ ¬ JoinsQuote front ∧
      stripComments (stripComments (front ++ '\'' :: behind)) ≠
        stripComments (front ++ '\'' :: behind) ∧
      layers (stripComments line) = keptLayers (layers line) ∧ ¬ JoinsQuote line := by
  intro front behind line
  have hcomment : BlockComments "/**/".toList :=
    @BlockComments.cons [] [] List.not_mem_nil (by decide) .nil
  have hides : HidesWord front :=
    ⟨"cas".toList, 'e', "/**/".toList, rfl, ⟨true, by decide⟩, by decide, hcomment, by decide⟩
  have hfirst : ¬ JoinsQuote front := not_joinsQuote_of_notMem (by decide)
  have hagain := (layers_stripComments_iff (front ++ '\'' :: behind)).2 front behind rfl hides hfirst
  have hkept : layers (stripComments line) = keptLayers (layers line) ∧
      stripComments (stripComments line) = stripComments line := by decide
  exact ⟨hides, hfirst, fun h => absurd (hagain.1 h) (by decide), hkept.1,
    (layers_stripComments_iff line).1.1 hkept⟩

/-- A comment is all that keeps a word and a literal apart, so that stripping again takes the rest of
the literal for a comment. -/
theorem stripComments_case :
    let kept := stripComments "case/**/'//':".toList
    kept = "case'//':".toList ∧ stripComments kept = "case'".toList ∧ stripComments kept ≠ kept := by
  decide

end ChaiBind.Text
