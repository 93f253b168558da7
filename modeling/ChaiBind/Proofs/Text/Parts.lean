import ChaiBind.Proofs.Text.Characters
import ChaiBind.Proofs.Text.Stripping
import Mathlib.Data.List.Induction

/-!
# Texts in parts

A text is scanned part by part: what is left of the first part, given the
character that follows it, and then what is left of the rest (`stripFrom_append`).
The character that follows decides something only if it opens a comment together
with a slash at the end of the first part, so that what follows a newline does not
matter for what is before it.

* `inclusiveLines_append`: a text that ends with a newline gives its own lines.
* `exists_of_stripPart_eq`: a character that is left stands in the part with what is left behind it.
* `length_inclusiveLines_stripFrom_le`: stripping leaves no more lines.
-/

namespace ChaiBind.Text

namespace Scan

theorem after_cons (s : Scan) (c : Char) (cs : List Char) (next : Option Char) :
    s.after (c :: cs) next = (s.step c (cs.head?.or next)).2.after cs next := rfl

theorem after_append (s : Scan) (u v : List Char) (next : Option Char) :
    s.after (u ++ v) next = (s.after u (v.head?.or next)).after v next := by
  induction u generalizing s with
  | nil => rfl
  | cons c u ih =>
    rw [List.cons_append, after_cons, after_cons, ih, List.head?_append, Option.or_assoc]

/-- A character that opens a comment after a slash. -/
def Opens (next : Option Char) : Prop := next = some '/' ∨ next = some '*'

/-- What a scan makes of a character that another may follow, case by case. -/
inductive Steps (c : Char) (next : Option Char) : Scan → Layer × Scan → Prop
  | opensLiteral {afterWord : Bool} (h : opensLiteral afterWord c) :
      Steps c next (.code afterWord) (.literal, .literal c)
  | opensLine {afterWord : Bool} (hc : c = '/') (hnext : next = some '/') :
      Steps c next (.code afterWord) (.comment, .lineComment)
  | opensBlock {afterWord : Bool} (hc : c = '/') (hnext : next = some '*') :
      Steps c next (.code afterWord) (.comment, .blockOpening)
  | code {afterWord : Bool} (hliteral : opensLiteral afterWord c = false)
      (hcomment : c = '/' → ¬ Opens next) :
      Steps c next (.code afterWord) (.code, .code c.isAlphanum)
  | escapes {quote : Char} (hc : c = '\\') : Steps c next (.literal quote) (.literal, .escape quote)
  | breaksLiteral {quote : Char} (hc : c = '\n') :
      Steps c next (.literal quote) (.code, .code false)
  | closesLiteral {quote : Char} (hc : c = quote) :
      Steps c next (.literal quote) (.literal, .code false)
  | literal {quote : Char} : Steps c next (.literal quote) (.literal, .literal quote)
  | escaped {quote : Char} : Steps c next (.escape quote) (.literal, .literal quote)
  | endsLine (hc : c = '\n') : Steps c next .lineComment (.code, .code false)
  | lineComment (hc : c ≠ '\n') : Steps c next .lineComment (.comment, .lineComment)
  | blockOpening : Steps c next .blockOpening (.comment, .blockComment false)
  | closesBlock {star : Bool} (hc : c = '/') :
      Steps c next (.blockComment star) (.comment, .code false)
  | blockComment {star : Bool} :
      Steps c next (.blockComment star) (.comment, .blockComment (c = '*'))

theorem steps_step (s : Scan) (c : Char) (next : Option Char) : Steps c next s (s.step c next) := by
  cases s with
  | code afterWord =>
    simp only [step, stepCode, Bool.and_eq_true, decide_eq_true_eq]
    split
    · exact .opensLiteral ‹_›
    · split
      · exact .opensLine (And.left ‹_›) (And.right ‹_›)
      · split
        · exact .opensBlock (And.left ‹_›) (And.right ‹_›)
        · rename_i hliteral hline hblock
          refine .code (Bool.not_eq_true _ ▸ hliteral) fun hc hopens => ?_
          exact hopens.elim (fun h => hline ⟨hc, h⟩) fun h => hblock ⟨hc, h⟩
  | literal quote =>
    simp only [step]
    split
    · exact .escapes ‹_›
    · split
      · exact .breaksLiteral ‹_›
      · split
        · exact .closesLiteral ‹_›
        · exact .literal
  | escape quote => exact .escaped
  | lineComment =>
    simp only [step]
    split
    · exact .endsLine ‹_›
    · exact .lineComment ‹_›
  | blockOpening => exact .blockOpening
  | blockComment star =>
    simp only [step, Bool.and_eq_true, decide_eq_true_eq]
    split
    · exact .closesBlock (And.right ‹_›)
    · exact .blockComment

/-- Only a slash is read with the character after it. -/
theorem step_eq_of_ne_slash (s : Scan) {c : Char} (hc : c ≠ '/') (next next' : Option Char) :
    s.step c next = s.step c next' := by
  cases s <;> simp [step, stepCode, hc]

theorem step_eq_of_not_opens (s : Scan) (c : Char) {next next' : Option Char}
    (h : ¬ Opens next) (h' : ¬ Opens next') : s.step c next = s.step c next' := by
  obtain ⟨h₁, h₂⟩ := not_or.1 h
  obtain ⟨h₁', h₂'⟩ := not_or.1 h'
  cases s <;> simp [step, stepCode, h₁, h₂, h₁', h₂']

theorem after_eq_of_not_opens (s : Scan) (u : List Char) {next next' : Option Char}
    (h : ¬ Opens next) (h' : ¬ Opens next') : s.after u next = s.after u next' := by
  induction u using List.reverseRecOn with
  | nil => rfl
  | append_singleton u c _ =>
    rw [after_append, after_append]
    exact congrArg Prod.snd (step_eq_of_not_opens _ c h h')

end Scan

/-! ## What is left of a part -/

/-- What is left of a text without comments that another character may follow. -/
def stripPart (s : Scan) : List Char → Option Char → List Char
  | [], _ => []
  | c :: cs, next =>
    let x := s.step c (cs.head?.or next)
    if survives (x.1, c) then c :: stripPart x.2 cs next else stripPart x.2 cs next

theorem stripPart_cons (s : Scan) (c : Char) (cs : List Char) (next : Option Char) :
    stripPart s (c :: cs) next =
      if survives ((s.step c (cs.head?.or next)).1, c) then
        c :: stripPart (s.step c (cs.head?.or next)).2 cs next
      else stripPart (s.step c (cs.head?.or next)).2 cs next := rfl

theorem stripFrom_append (s : Scan) (u v : List Char) :
    stripFrom s (u ++ v) = stripPart s u v.head? ++ stripFrom (s.after u v.head?) v := by
  induction u generalizing s with
  | nil => rfl
  | cons c u ih =>
    rw [List.cons_append, stripFrom_cons, stripPart_cons, List.head?_append, ih, Scan.after_cons]
    split <;> rfl

theorem stripPart_append (s : Scan) (u v : List Char) (next : Option Char) :
    stripPart s (u ++ v) next =
      stripPart s u (v.head?.or next) ++ stripPart (s.after u (v.head?.or next)) v next := by
  induction u generalizing s with
  | nil => rfl
  | cons c u ih =>
    rw [List.cons_append, stripPart_cons, stripPart_cons, List.head?_append, Option.or_assoc, ih,
      Scan.after_cons]
    split <;> rfl

theorem stripFrom_eq_stripPart (s : Scan) (cs : List Char) : stripFrom s cs = stripPart s cs none := by
  have h := stripFrom_append s cs []
  rwa [List.append_nil, stripFrom_nil, List.append_nil] at h

theorem stripPart_eq_of_not_opens (s : Scan) (u : List Char) {next next' : Option Char}
    (h : ¬ Scan.Opens next) (h' : ¬ Scan.Opens next') :
    stripPart s u next = stripPart s u next' := by
  induction u using List.reverseRecOn with
  | nil => rfl
  | append_singleton u c _ =>
    rw [stripPart_append, stripPart_append]
    simp only [stripPart_cons, List.head?_nil, Option.none_or, Scan.step_eq_of_not_opens _ c h h']
    rfl

theorem stripPart_sublist (s : Scan) (cs : List Char) (next : Option Char) :
    (stripPart s cs next).Sublist cs := by
  induction cs generalizing s with
  | nil => exact List.Sublist.refl _
  | cons c cs ih =>
    rw [stripPart_cons]
    split
    · exact (ih _).cons_cons c
    · exact (ih _).cons c

/-- Where a character that is left of a part stands in it. -/
theorem exists_of_stripPart_eq {s : Scan} {cs x y : List Char} {c : Char} {next : Option Char}
    (h : stripPart s cs next = x ++ c :: y) :
    ∃ u v, cs = u ++ c :: v ∧
      survives (((s.after u (some c)).step c (v.head?.or next)).1, c) ∧
      stripPart ((s.after u (some c)).step c (v.head?.or next)).2 v next = y := by
  induction cs generalizing s x with
  | nil => exact absurd h.symm (by simp [stripPart])
  | cons d cs ih =>
    have hlater : ∀ x, stripPart (s.step d (cs.head?.or next)).2 cs next = x ++ c :: y →
        ∃ u v, d :: cs = u ++ c :: v ∧
          survives (((s.after u (some c)).step c (v.head?.or next)).1, c) ∧
          stripPart ((s.after u (some c)).step c (v.head?.or next)).2 v next = y := by
      intro x h
      obtain ⟨u, v, rfl, hfound⟩ := ih h
      refine ⟨d :: u, v, rfl, ?_⟩
      rwa [List.head?_append, List.head?_cons, Option.or_assoc, Option.some_or,
        ← Scan.after_cons] at hfound
    rw [stripPart_cons] at h
    split at h
    · rename_i hkept
      cases x with
      | nil =>
        obtain ⟨rfl, hy⟩ := List.cons.inj h
        exact ⟨[], cs, rfl, hkept, hy⟩
      | cons _ x => exact hlater x (List.cons.inj h).2
    · exact hlater x h

/-- The characters of a text that another character may follow, with their layers. -/
def layersPart (s : Scan) : List Char → Option Char → List (Layer × Char)
  | [], _ => []
  | c :: cs, next =>
    let x := s.step c (cs.head?.or next)
    (x.1, c) :: layersPart x.2 cs next

theorem layersPart_cons (s : Scan) (c : Char) (cs : List Char) (next : Option Char) :
    layersPart s (c :: cs) next = ((s.step c (cs.head?.or next)).1, c) ::
      layersPart (s.step c (cs.head?.or next)).2 cs next := rfl

theorem length_layersPart (s : Scan) (cs : List Char) (next : Option Char) :
    (layersPart s cs next).length = cs.length := by
  induction cs generalizing s with
  | nil => rfl
  | cons c cs ih => rw [layersPart_cons, List.length_cons, ih, List.length_cons]

theorem layersFrom_append (s : Scan) (u v : List Char) :
    layersFrom s (u ++ v) = layersPart s u v.head? ++ layersFrom (s.after u v.head?) v := by
  induction u generalizing s with
  | nil => rfl
  | cons c u ih =>
    rw [List.cons_append, layersFrom, List.head?_append, ih, layersPart_cons, Scan.after_cons,
      List.cons_append]

theorem layersFrom_eq_layersPart (s : Scan) (cs : List Char) :
    layersFrom s cs = layersPart s cs none := by
  have h := layersFrom_append s cs []
  rwa [List.append_nil, layersFrom, List.append_nil] at h

theorem stripPart_eq_map_filter (s : Scan) (cs : List Char) (next : Option Char) :
    stripPart s cs next = ((layersPart s cs next).filter survives).map Prod.snd := by
  induction cs generalizing s with
  | nil => rfl
  | cons c cs ih =>
    rw [stripPart_cons, layersPart_cons, List.filter_cons, ih]
    split <;> rfl

/-! ## Comments -/

theorem after_lineComment {c : List Char} (hc : '\n' ∉ c) (next : Option Char) :
    Scan.lineComment.after c next = .lineComment := by
  induction c with
  | nil => rfl
  | cons d c ih =>
    rw [List.mem_cons, not_or] at hc
    rw [Scan.after_cons, Scan.step, if_neg (Ne.symm hc.1)]
    exact ih hc.2

theorem stripPart_lineComment {c : List Char} (hc : '\n' ∉ c) (next : Option Char) :
    stripPart .lineComment c next = [] := by
  induction c with
  | nil => rfl
  | cons d c ih =>
    rw [List.mem_cons, not_or] at hc
    rw [stripPart_cons, Scan.step, if_neg (Ne.symm hc.1), ih hc.2, if_neg]
    simp [survives, Ne.symm hc.1]

/-- A block comment goes on over a text that does not close it. -/
theorem Scan.step_blockComment {c : Char} {note : List Char} (h : ¬ ['*', '/'] <:+: c :: note)
    {star : Bool} (hstar : star → c ≠ '/') (next : Option Char) :
    (blockComment star).step c next = (.comment, .blockComment (c = '*')) ∧
      ¬ ['*', '/'] <:+: note ∧ (decide (c = '*') = true → note.head? ≠ some '/') := by
  have hopen : ¬ (star && c = '/') = true := by
    rw [Bool.and_eq_true, decide_eq_true_eq]
    exact fun hclose => hstar hclose.1 hclose.2
  rw [List.infix_cons_iff, not_or] at h
  refine ⟨if_neg hopen, h.2, fun hc hhead => h.1 ?_⟩
  obtain ⟨ds, rfl⟩ := List.head?_eq_some_iff.1 hhead
  rw [of_decide_eq_true hc]
  exact List.prefix_append ['*', '/'] ds

/-- A block comment that has been opened leaves its newlines, and code follows it. -/
theorem scan_blockComment {note : List Char} (h : ¬ ['*', '/'] <:+: note) {star : Bool}
    (hstar : star → note.head? ≠ some '/') (v : List Char) (next : Option Char) :
    (Scan.blockComment star).after (note ++ '*' :: '/' :: v) next = (Scan.code false).after v next ∧
      stripPart (.blockComment star) (note ++ '*' :: '/' :: v) next =
        note.filter (· = '\n') ++ stripPart (.code false) v next := by
  induction note generalizing star with
  | nil =>
    have hclose : (Scan.blockComment star).step '*' (some '/') = (.comment, .blockComment true) := by
      simp [Scan.step]
    have hdropped : ¬ survives (Layer.comment, '*') := by decide
    rw [List.nil_append, Scan.after_cons, stripPart_cons, List.head?_cons, Option.some_or, hclose,
      if_neg hdropped]
    exact ⟨rfl, rfl⟩
  | cons c note ih =>
    have hc : star → c ≠ '/' := fun hs hslash => hstar hs (congrArg some hslash)
    obtain ⟨hstep, hrest, hnext⟩ := Scan.step_blockComment h hc
      ((note ++ '*' :: '/' :: v).head?.or next)
    obtain ⟨hafter, hstrip⟩ := ih hrest hnext
    rw [List.cons_append, Scan.after_cons, stripPart_cons, hstep, hafter, hstrip, List.filter_cons]
    refine ⟨rfl, ?_⟩
    by_cases hc : c = '\n'
    · rw [if_pos (by simp [survives, hc]), if_pos (decide_eq_true hc), List.cons_append]
    · rw [if_neg (by simp [survives, hc]), if_neg (by simpa using hc)]

/-! ## Ends of lines -/

/-- The text is empty or ends with a newline. -/
def EndsLine (cs : List Char) : Prop := ∀ c ∈ cs.getLast?, c = '\n'

instance (cs : List Char) : Decidable (EndsLine cs) :=
  inferInstanceAs (Decidable (∀ c ∈ cs.getLast?, c = '\n'))

theorem endsLine_nil : EndsLine [] := nofun

theorem endsLine_append_newline (cs : List Char) : EndsLine (cs ++ ['\n']) := by
  simp [EndsLine]

theorem EndsLine.eq_nil_or {cs : List Char} (h : EndsLine cs) :
    cs = [] ∨ ∃ ds, cs = ds ++ ['\n'] := by
  rcases List.eq_nil_or_concat cs with rfl | ⟨ds, c, rfl⟩
  · exact .inl rfl
  · obtain rfl : c = '\n' := h c (by simp)
    exact .inr ⟨ds, List.concat_eq_append⟩

/-- What follows a newline does not matter before it. -/
theorem EndsLine.after_eq {cs : List Char} (h : EndsLine cs) (s : Scan) (next next' : Option Char) :
    s.after cs next = s.after cs next' := by
  rcases h.eq_nil_or with rfl | ⟨ds, rfl⟩
  · rfl
  · rw [Scan.after_append, Scan.after_append]
    exact congrArg Prod.snd (Scan.step_eq_of_ne_slash _ (by decide) _ _)

theorem EndsLine.stripPart_eq {cs : List Char} (h : EndsLine cs) (s : Scan)
    (next next' : Option Char) : stripPart s cs next = stripPart s cs next' := by
  rcases h.eq_nil_or with rfl | ⟨ds, rfl⟩
  · rfl
  · rw [stripPart_append, stripPart_append, stripPart_cons, stripPart_cons,
      if_pos (survives_newline _), if_pos (survives_newline _)]
    rfl

theorem EndsLine.stripPart {cs : List Char} (h : EndsLine cs) (s : Scan) (next : Option Char) :
    EndsLine (stripPart s cs next) := by
  rcases h.eq_nil_or with rfl | ⟨ds, rfl⟩
  · exact endsLine_nil
  · rw [stripPart_append, stripPart_cons, if_pos (survives_newline _)]
    exact endsLine_append_newline _

/-- Every text is made of whole lines and a part of a line. -/
theorem exists_endsLine_append (cs : List Char) :
    ∃ lines line, cs = lines ++ line ∧ EndsLine lines ∧ '\n' ∉ line := by
  induction cs using List.reverseRecOn with
  | nil => exact ⟨[], [], rfl, endsLine_nil, List.not_mem_nil⟩
  | append_singleton cs c ih =>
    obtain ⟨lines, line, rfl, hlines, hline⟩ := ih
    by_cases hc : c = '\n'
    · subst hc
      exact ⟨lines ++ line ++ ['\n'], [], by simp, endsLine_append_newline _, List.not_mem_nil⟩
    · refine ⟨lines, line ++ [c], by simp, hlines, ?_⟩
      rw [List.mem_append, List.mem_singleton, not_or]
      exact ⟨hline, fun e => hc e.symm⟩

theorem not_isNewline_and {c : Char} {cs : List Char} (h : '\n' ∉ c :: cs) :
    ¬ isNewline c ∧ '\n' ∉ cs := by
  rw [List.mem_cons, not_or] at h
  exact ⟨fun e => h.1 (isNewline_iff.1 e).symm, h.2⟩

/-- A text without newlines goes in front of the first line of what follows it. -/
theorem inclusiveLines_append_of_notMem {line : List Char} (h : '\n' ∉ line) (hne : line ≠ [])
    (rest : List Char) :
    inclusiveLines (line ++ rest) =
      (line ++ (inclusiveLines rest).headD []) :: (inclusiveLines rest).tail := by
  induction line with
  | nil => exact absurd rfl hne
  | cons c cs ih =>
    obtain ⟨hc, hcs⟩ := not_isNewline_and h
    rw [List.cons_append, inclusiveLines, if_neg hc]
    cases cs with
    | nil =>
      rw [List.nil_append]
      cases inclusiveLines rest <;> rfl
    | cons d ds =>
      rw [ih hcs (List.cons_ne_nil d ds)]
      rfl

theorem inclusiveLines_append_newline {line : List Char} (h : '\n' ∉ line) (rest : List Char) :
    inclusiveLines (line ++ '\n' :: rest) = (line ++ ['\n']) :: inclusiveLines rest := by
  by_cases hne : line = []
  · subst hne
    rfl
  · exact inclusiveLines_append_of_notMem h hne ('\n' :: rest)

theorem inclusiveLines_of_notMem {line : List Char} (h : '\n' ∉ line) (hne : line ≠ []) :
    inclusiveLines line = [line] := by
  have hline := inclusiveLines_append_of_notMem h hne []
  rwa [List.append_nil, inclusiveLines, List.headD_nil, List.append_nil] at hline

/-- Whole lines in front of a text come before its lines. -/
theorem inclusiveLines_append {lines : List Char} (h : EndsLine lines) (rest : List Char) :
    inclusiveLines (lines ++ rest) = inclusiveLines lines ++ inclusiveLines rest := by
  induction lines with
  | nil => rfl
  | cons c cs ih =>
    by_cases hc : isNewline c
    · have hcs : EndsLine cs := by
        intro d hd
        refine h d ?_
        rw [List.getLast?_cons, Option.mem_def.1 hd]
        rfl
      rw [List.cons_append, inclusiveLines, inclusiveLines, if_pos hc, if_pos hc, ih hcs,
        List.cons_append]
    · cases cs with
      | nil => exact absurd (isNewline_iff.2 (h c (by simp))) hc
      | cons d ds =>
        have hcs : EndsLine (d :: ds) := by
          intro e he
          exact h e (by rwa [List.getLast?_cons_cons])
        have hne : inclusiveLines (d :: ds) ≠ [] := by
          rw [Ne, inclusiveLines_eq_nil]
          exact List.cons_ne_nil d ds
        obtain ⟨l, ls, hls⟩ := List.exists_cons_of_ne_nil hne
        rw [List.cons_append, inclusiveLines, inclusiveLines, if_neg hc, if_neg hc, ih hcs, hls]
        rfl

/-! ## Sums over lines -/

/-- The sum of a number that each line has. -/
def sumLines (f : List Char → Nat) : List (List Char) → Nat
  | [] => 0
  | line :: lines => f line + sumLines f lines

theorem sumLines_append (f : List Char → Nat) (xs ys : List (List Char)) :
    sumLines f (xs ++ ys) = sumLines f xs + sumLines f ys := by
  induction xs with
  | nil => rw [List.nil_append, sumLines, Nat.zero_add]
  | cons x xs ih => rw [List.cons_append, sumLines, ih, sumLines, Nat.add_assoc]

/-! ## Blanks at the ends -/

/-- A line ending is blank. -/
theorem exists_append_dropLineEnding (line : List Char) :
    ∃ ending, (∀ c ∈ ending, isBlank c) ∧ line = dropLineEnding line ++ ending := by
  rw [dropLineEnding]
  split
  · rename_i r h
    refine ⟨['\r', '\n'], by decide, ?_⟩
    rw [← List.reverse_reverse line, h]
    simp
  · rename_i r _ h
    refine ⟨['\n'], by decide, ?_⟩
    rw [← List.reverse_reverse line, h]
    simp
  · exact ⟨[], nofun, (List.append_nil line).symm⟩

theorem exists_append_trimEnd (cs : List Char) :
    ∃ b, (∀ c ∈ b, isBlank c) ∧ cs = trimEnd cs ++ b := by
  refine ⟨(cs.reverse.takeWhile isBlank).reverse, fun c hc => ?_, ?_⟩
  · exact List.mem_takeWhile_imp (List.mem_reverse.1 hc)
  · rw [trimEnd, ← List.reverse_append, List.takeWhile_append_dropWhile, List.reverse_reverse]

theorem trimStart_append (x v : List Char) :
    trimStart (x ++ v) = if trimStart x = [] then trimStart v else trimStart x ++ v := by
  rw [trimStart, List.dropWhile_append]
  simp only [List.isEmpty_iff]
  rfl

theorem trimStart_append_cons {d : Char} (hd : isBlank d = false) (u v : List Char) :
    trimStart (u ++ d :: v) = trimStart u ++ d :: v := by
  have hstart : trimStart (d :: v) = d :: v := List.dropWhile_cons_of_neg (by simp [hd])
  rw [trimStart_append, hstart]
  split
  · rename_i hnil
    rw [hnil, List.nil_append]
  · rfl

theorem trimEnd_append_cons {d : Char} (hd : isBlank d = false) (u v : List Char) :
    trimEnd (u ++ d :: v) = u ++ d :: trimEnd v := by
  have hreverse : (u ++ d :: v).reverse = v.reverse ++ d :: u.reverse := by simp
  have htrim := trimStart_append_cons hd v.reverse u.reverse
  rw [trimEnd, hreverse, ← trimStart, htrim, trimEnd, ← trimStart]
  simp

/-- Trimming takes blanks away. -/
theorem exists_append_trim (cs : List Char) :
    ∃ a b, (∀ c ∈ a, isBlank c) ∧ (∀ c ∈ b, isBlank c) ∧ cs = a ++ trim cs ++ b := by
  obtain ⟨b, hb, hend⟩ := exists_append_trimEnd (trimStart cs)
  refine ⟨leadingBlank cs, b, fun c hc => List.mem_takeWhile_imp hc, hb, ?_⟩
  rw [trim, List.append_assoc, ← hend, leadingBlank_append_trimStart]

theorem trimEnd_append_of_blank {b : List Char} (hb : ∀ c ∈ b, isBlank c) (cs : List Char) :
    trimEnd (cs ++ b) = trimEnd cs := by
  have hreverse : ∀ c ∈ b.reverse, isBlank c := fun c hc => hb c (List.mem_reverse.1 hc)
  rw [trimEnd, List.reverse_append, List.dropWhile_append_of_pos hreverse, trimEnd]

theorem trim_append_of_blank {b : List Char} (hb : ∀ c ∈ b, isBlank c) (cs : List Char) :
    trim (cs ++ b) = trim cs := by
  have hblank : trimStart b = [] := List.dropWhile_eq_nil_iff.2 hb
  rw [trim, trim, trimStart_append]
  split
  · rename_i hnil
    rw [hblank, hnil]
  · rw [trimEnd_append_of_blank hb]

theorem dropWhile_eq_self {p : Char → Bool} {cs : List Char} (h : cs.head?.any p = false) :
    cs.dropWhile p = cs := by
  cases cs with
  | nil => rfl
  | cons c cs => exact List.dropWhile_cons_of_neg (Bool.not_eq_true _ ▸ h)

theorem trimStart_blanks_append {blanks v : List Char} (hblanks : ∀ c ∈ blanks, isBlank c)
    (hv : v.head?.any isBlank = false) : trimStart (blanks ++ v) = v := by
  rw [trimStart, List.dropWhile_append_of_pos hblanks, dropWhile_eq_self hv]

theorem trim_trim (cs : List Char) : trim (trim cs) = trim cs := by
  obtain ⟨b, -, hend⟩ := exists_append_trimEnd (trimStart cs)
  have hhead : (trim cs).head?.any isBlank = false := by
    have hblank := any_head?_dropWhile isBlank cs
    rw [← trimStart, hend, ← trim] at hblank
    cases htrim : trim cs with
    | nil => rfl
    | cons d ds =>
      rw [htrim] at hblank
      exact hblank
  have hstart : trimStart (trim cs) = trim cs := dropWhile_eq_self hhead
  rw [trim, hstart, trim, trimEnd, trimEnd, List.reverse_reverse,
    dropWhile_eq_self (any_head?_dropWhile isBlank _)]

/-- A text has at least as many lines as what is left of it without comments. -/
theorem length_inclusiveLines_stripFrom_le (s : Scan) (cs : List Char) :
    (inclusiveLines (stripFrom s cs)).length ≤ (inclusiveLines cs).length := by
  have hcons : ∀ (c : Char) (ls : List (List Char)), ls.length ≤ (consHead c ls).length := by
    intro c ls
    cases ls <;> simp [consHead]
  induction cs generalizing s with
  | nil => exact Nat.le_refl _
  | cons c cs ih =>
    have ih := ih (s.step c cs.head?).2
    rw [stripFrom_cons]
    by_cases hc : isNewline c
    · obtain rfl := isNewline_iff.1 hc
      rw [if_pos (survives_newline _), inclusiveLines, inclusiveLines, if_pos hc, if_pos hc]
      simpa using ih
    · rw [inclusiveLines, if_neg hc]
      split
      · rw [inclusiveLines, if_neg hc]
        cases hls : inclusiveLines cs with
        | nil =>
          rw [inclusiveLines_eq_nil.1 hls]
          exact Nat.le_refl _
        | cons l ls =>
          rw [hls] at ih
          cases hks : inclusiveLines (stripFrom (s.step c cs.head?).2 cs) with
          | nil => simp [consHead]
          | cons k ks =>
            rw [hks] at ih
            simpa [consHead] using ih
      · exact Nat.le_trans ih (hcons c _)

end ChaiBind.Text
