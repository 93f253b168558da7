import ChaiBind.Proofs.Text.ContinuedLiterals
import ChaiBind.Proofs.Text.Places
import ChaiBind.Proofs.Text.PlainCode

/-!
# Trivia

What is passed over in front of a declaration are blanks and comments. They are passed over in
rounds, of which each takes the blanks at the start and then one comment, looked for by its signs
alone (`afterComment?`), and leaves less of the text (`skipRounds`). This finds the same comments as
the scan that strips them.

* `skipRounds_eq`: the rounds leave what the scan leaves.
* `exists_passed`: what is passed over strips to blanks.
* `triviaEnd_spec`: where trivia ends behind a position of a text.
-/

namespace ChaiBind.Text

/-! ## Rounds -/

/-- What follows the end of a block comment that has been opened. -/
def afterBlockComment : List Char → List Char
  | '*' :: '/' :: cs => cs
  | _ :: cs => afterBlockComment cs
  | [] => []

/-- What follows the comment at the start of a text. -/
def afterComment? : List Char → Option (List Char)
  | '/' :: '/' :: cs => some (cs.dropWhile (· ≠ '\n')).tail
  | '/' :: '*' :: cs => some (afterBlockComment cs)
  | _ => none

theorem length_afterBlockComment_le (cs : List Char) :
    (afterBlockComment cs).length ≤ cs.length := by
  fun_induction afterBlockComment cs with
  | case1 cs => simp only [List.length_cons]; omega
  | case2 c cs _ ih => rw [List.length_cons]; omega
  | case3 => exact Nat.le_refl _

/-- A comment is not empty. -/
theorem length_lt_of_afterComment? {cs rest : List Char} (h : afterComment? cs = some rest) :
    rest.length < cs.length := by
  unfold afterComment? at h
  split at h
  · rename_i cs
    obtain rfl := Option.some.inj h
    have hle := (List.dropWhile_suffix (l := cs) (· ≠ '\n')).length_le
    rw [List.length_tail, List.length_cons, List.length_cons]
    omega
  · rename_i cs
    obtain rfl := Option.some.inj h
    have hle := length_afterBlockComment_le cs
    rw [List.length_cons, List.length_cons]
    omega
  · cases h

/-- What is left of a text after rounds of blanks and a comment. -/
def skipRounds (cs : List Char) : List Char :=
  match _h : afterComment? (trimStart cs) with
  | some rest => skipRounds rest
  | none => trimStart cs
termination_by cs.length
decreasing_by
  have hlt := length_lt_of_afterComment? _h
  have hle := (List.dropWhile_suffix isBlank (l := cs)).length_le
  rw [trimStart] at hlt
  omega

theorem skipRounds_of_some {cs rest : List Char} (h : afterComment? (trimStart cs) = some rest) :
    skipRounds cs = skipRounds rest := by
  rw [skipRounds]
  split
  · rename_i rest' h'
    rw [h] at h'
    rw [Option.some.inj h']
  · rename_i h'
    rw [h] at h'
    cases h'

theorem skipRounds_of_none {cs : List Char} (h : afterComment? (trimStart cs) = none) :
    skipRounds cs = trimStart cs := by
  rw [skipRounds]
  split
  · rename_i rest h'
    rw [h] at h'
    cases h'
  · rfl

/-! ## The scan goes round after round -/

theorem skipTriviaFrom_cons (s : Scan) (c : Char) (cs : List Char) :
    skipTriviaFrom s (c :: cs) =
      if (s.step c cs.head?).1 = .comment ∨ isBlank c then skipTriviaFrom (s.step c cs.head?).2 cs
      else c :: cs := by
  rw [skipTriviaFrom]
  simp only [Bool.or_eq_true, decide_eq_true_eq]

theorem isAlphanum_eq_false_of_isBlank {c : Char} (h : isBlank c) : c.isAlphanum = false := by
  have hall : ∀ n ∈ blankCodes, (Char.ofNat n).isAlphanum = false := by decide +kernel
  rw [← Char.ofNat_toNat c]
  exact hall _ (toNat_mem_blankCodes h)

theorem step_blank {c : Char} (hc : isBlank c) (afterWord : Bool) (next : Option Char) :
    (Scan.code afterWord).step c next = (.code, .start) := by
  have hplain : IsPlainCode afterWord [c] :=
    isPlainCode_of_blank (List.forall_mem_singleton.2 hc) afterWord
  have hslash : c ≠ '/' := by
    rintro rfl
    exact absurd hc (by decide)
  rw [Scan.step_code hplain.literals.1 (fun h => absurd h hslash),
    isAlphanum_eq_false_of_isBlank hc, Scan.start]

theorem skipTrivia_trimStart (cs : List Char) : skipTrivia (trimStart cs) = skipTrivia cs := by
  induction cs with
  | nil => rfl
  | cons c cs ih =>
    by_cases hc : isBlank c
    · have hskip : skipTrivia (c :: cs) = skipTrivia cs := by
        rw [skipTrivia, skipTriviaFrom_cons, if_pos (.inr hc), Scan.start, step_blank hc, skipTrivia]
      rw [hskip, ← ih, trimStart, List.dropWhile_cons_of_pos hc, trimStart]
    · rw [trimStart, List.dropWhile_cons_of_neg hc]

theorem skipTriviaFrom_lineComment_eq (cs : List Char) :
    skipTriviaFrom .lineComment cs = skipTrivia (cs.dropWhile (· ≠ '\n')).tail := by
  induction cs with
  | nil => rfl
  | cons c cs ih =>
    by_cases hc : c = '\n'
    · subst hc
      rfl
    · have hstep : Scan.lineComment.step c cs.head? = (.comment, .lineComment) := if_neg hc
      rw [skipTriviaFrom_cons, hstep, if_pos (.inl rfl), ih, List.dropWhile_cons,
        if_pos (by simpa using hc)]

theorem afterBlockComment_cons {c : Char} {cs : List Char} (h : c = '*' → cs.head? ≠ some '/') :
    afterBlockComment (c :: cs) = afterBlockComment cs := by
  rw [afterBlockComment]
  rintro ds rfl rfl
  exact h rfl rfl

/-- In a block comment a star that comes before counts as if it stood at the start. -/
theorem skipTriviaFrom_blockComment_eq (star : Bool) (cs : List Char) :
    skipTriviaFrom (.blockComment star) cs =
      skipTrivia (afterBlockComment (if star then '*' :: cs else cs)) := by
  induction cs generalizing star with
  | nil => cases star <;> rfl
  | cons c cs ih =>
    by_cases hend : star ∧ c = '/'
    · obtain ⟨rfl, rfl⟩ := hend
      rfl
    · have hstep : (Scan.blockComment star).step c cs.head? = (.comment, .blockComment (c = '*')) :=
        if_neg (by simpa using hend)
      have hstar : afterBlockComment (if star then '*' :: c :: cs else c :: cs) =
          afterBlockComment (c :: cs) := by
        split
        · rename_i hs
          exact afterBlockComment_cons fun _ hc => hend ⟨hs, Option.some.inj hc⟩
        · rfl
      rw [skipTriviaFrom_cons, hstep, if_pos (.inl rfl), ih, hstar]
      by_cases hc : c = '*'
      · rw [if_pos (by simpa using hc), hc]
      · rw [if_neg (by simpa using hc), afterBlockComment_cons fun h => absurd h hc]

/-- A comment is passed over as a whole. -/
theorem skipTrivia_of_afterComment? {cs rest : List Char} (h : afterComment? cs = some rest) :
    skipTrivia cs = skipTrivia rest := by
  unfold afterComment? at h
  split at h
  · obtain rfl := Option.some.inj h
    exact skipTriviaFrom_lineComment_eq _
  · obtain rfl := Option.some.inj h
    exact skipTriviaFrom_blockComment_eq false _
  · cases h

/-! ## Where nothing is left to pass over -/

/-- Nothing is left to pass over: the text is empty or starts with a character that is not blank and
opens no comment. -/
structure EndsTrivia (cs : List Char) : Prop where
  head : ∀ c ∈ cs.head?, isBlank c = false
  line : ¬ ['/', '/'] <+: cs
  block : ¬ ['/', '*'] <+: cs

theorem endsTrivia_nil : EndsTrivia [] := ⟨nofun, by simp, by simp⟩

theorem afterComment?_eq_none_iff {cs : List Char} :
    afterComment? cs = none ↔ ¬ ['/', '/'] <+: cs ∧ ¬ ['/', '*'] <+: cs := by
  unfold afterComment?
  split
  · simp
  · simp
  · rename_i hline hblock
    refine ⟨fun _ => ⟨?_, ?_⟩, fun _ => rfl⟩
    · rintro ⟨ds, rfl⟩
      exact hline ds rfl
    · rintro ⟨ds, rfl⟩
      exact hblock ds rfl

/-- In code a comment starts where its signs stand. -/
theorem Scan.step_code_eq_comment_iff {afterWord : Bool} {c : Char} {next : Option Char} :
    ((Scan.code afterWord).step c next).1 = .comment ↔ c = '/' ∧ Scan.Opens next := by
  by_cases hliteral : Scan.opensLiteral afterWord c
  · have hslash : c ≠ '/' := by
      rintro rfl
      rw [opensLiteral_eq_false (by decide)] at hliteral
      cases hliteral
    simp [Scan.step, Scan.stepCode, hliteral, hslash]
  · rw [Bool.not_eq_true] at hliteral
    by_cases hopens : c = '/' ∧ Scan.Opens next
    · obtain ⟨rfl, rfl | rfl⟩ := hopens
      · simp [Scan.step, Scan.stepCode, hliteral, Scan.Opens]
      · simp [Scan.step, Scan.stepCode, hliteral, Scan.Opens]
    · rw [Scan.step_code hliteral (not_and.1 hopens)]
      simpa using not_and.1 hopens

/-- In code nothing is passed over exactly where neither a blank nor a comment comes. -/
theorem EndsTrivia.of_code {afterWord : Bool} {c : Char} {cs : List Char}
    (h : ¬ (((Scan.code afterWord).step c cs.head?).1 = .comment ∨ isBlank c)) :
    EndsTrivia (c :: cs) := by
  obtain ⟨hcomment, hblank⟩ := not_or.1 h
  rw [Scan.step_code_eq_comment_iff, not_and] at hcomment
  refine ⟨fun d hd => ?_, ?_, ?_⟩
  · rw [← Option.some.inj hd, ← Bool.not_eq_true]
    exact hblank
  · rintro ⟨ds, hds⟩
    obtain ⟨rfl, rfl⟩ := List.cons.inj hds
    exact hcomment rfl (.inl rfl)
  · rintro ⟨ds, hds⟩
    obtain ⟨rfl, rfl⟩ := List.cons.inj hds
    exact hcomment rfl (.inr rfl)

theorem EndsTrivia.skipTrivia_eq {cs : List Char} (h : EndsTrivia cs) : skipTrivia cs = cs := by
  cases cs with
  | nil => rfl
  | cons c cs =>
    refine (skipTriviaFrom_cons .start c cs).trans (if_neg (not_or.2 ⟨fun hcomment => ?_, ?_⟩))
    · obtain ⟨rfl, hopens⟩ := Scan.step_code_eq_comment_iff.1 hcomment
      cases cs with
      | nil => exact absurd hopens (by simp [Scan.Opens])
      | cons d ds =>
        rcases hopens with hd | hd
        · obtain rfl := Option.some.inj hd
          exact h.line (List.prefix_append ['/', '/'] ds)
        · obtain rfl := Option.some.inj hd
          exact h.block (List.prefix_append ['/', '*'] ds)
    · rw [h.head c rfl]
      exact Bool.false_ne_true

/-- The scan passes over what the rounds pass over. -/
theorem skipRounds_eq (cs : List Char) : skipRounds cs = skipTrivia cs := by
  induction hn : cs.length using Nat.strongRecOn generalizing cs with
  | ind n ih =>
    rw [← skipTrivia_trimStart]
    cases hcomment : afterComment? (trimStart cs) with
    | some rest =>
      have hlt := length_lt_of_afterComment? hcomment
      have hle := (List.dropWhile_suffix isBlank (l := cs)).length_le
      rw [← trimStart] at hle
      rw [skipRounds_of_some hcomment, skipTrivia_of_afterComment? hcomment]
      exact ih rest.length (by omega) rest rfl
    | none =>
      obtain ⟨hline, hblock⟩ := afterComment?_eq_none_iff.1 hcomment
      have hends : EndsTrivia (trimStart cs) := ⟨fun c hc => ?_, hline, hblock⟩
      · rw [skipRounds_of_none hcomment, hends.skipTrivia_eq]
      · have hblank := any_head?_dropWhile isBlank cs
        rw [← trimStart, Option.mem_def.1 hc] at hblank
        exact hblank

/-! ## What is passed over -/

/-- A text that a comment sign has just been opened in front of is passed over in part. -/
theorem skipTriviaFrom_ne_self {s : Scan} (hs : s = .lineComment ∨ s = .blockOpening) {c : Char}
    (hc : c ≠ '\n') (cs : List Char) : skipTriviaFrom s (c :: cs) ≠ c :: cs := by
  have hcomment : (s.step c cs.head?).1 = .comment := by
    rcases hs with rfl | rfl
    · exact congrArg Prod.fst (if_neg hc)
    · rfl
  intro h
  rw [skipTriviaFrom_cons, if_pos (.inl hcomment)] at h
  have hle := (skipTriviaFrom_isSuffix (s.step c cs.head?).2 cs).length_le
  rw [h, List.length_cons] at hle
  omega

/-- A character that is passed over is read as it is when only what is passed over follows. -/
theorem step_passed {s : Scan} (hs : ¬ s.InLiteral) {c : Char} {passed rest : List Char}
    (hskip : (s.step c (passed ++ rest).head?).1 = .comment ∨ isBlank c)
    (hrest : rest = skipTriviaFrom (s.step c (passed ++ rest).head?).2 (passed ++ rest)) :
    s.step c passed.head? = s.step c (passed ++ rest).head? := by
  by_cases hc : c = '/'
  · subst hc
    cases s with
    | code afterWord =>
      have hcomment := hskip.resolve_right (by decide)
      obtain ⟨-, hopens⟩ := Scan.step_code_eq_comment_iff.1 hcomment
      cases passed with
      | cons d ds => rfl
      | nil =>
        rw [List.nil_append] at hrest hopens
        cases rest with
        | nil => exact absurd hopens (by simp [Scan.Opens])
        | cons d ds =>
          refine absurd hrest.symm (skipTriviaFrom_ne_self ?_ ?_ ds)
          · rcases hopens with hd | hd
            · obtain rfl := Option.some.inj hd
              exact .inl rfl
            · obtain rfl := Option.some.inj hd
              exact .inr rfl
          · rintro rfl
            exact absurd hopens (by simp [Scan.Opens])
    | literal quote | escape quote => exact absurd trivial hs
    | lineComment | blockOpening | blockComment star => rfl
  · exact s.step_eq_of_ne_slash hc _ _

/-- What is passed over in code or in a comment leads on to code or a comment. -/
theorem not_inLiteral_step {s : Scan} (hs : ¬ s.InLiteral) {c : Char} {next : Option Char}
    (hskip : (s.step c next).1 = .comment ∨ isBlank c) : ¬ (s.step c next).2.InLiteral := by
  cases s with
  | code afterWord =>
    rcases hskip with hcomment | hblank
    · obtain ⟨rfl, rfl | rfl⟩ := Scan.step_code_eq_comment_iff.1 hcomment
      · exact id
      · exact id
    · rw [step_blank hblank]
      exact id
  | literal quote | escape quote => exact absurd trivial hs
  | blockOpening => exact id
  | lineComment | blockComment star =>
    simp only [Scan.step]
    split <;> exact id

/-- What survives of blanks and comments is blank. -/
theorem isBlank_of_survives {layer : Layer} {c : Char} (hskip : layer = .comment ∨ isBlank c)
    (hkept : survives (layer, c)) : isBlank c := by
  rcases hskip with hcomment | hblank
  · rw [eq_newline_of_survives hkept hcomment]
    decide
  · exact hblank

/-- Where the scan stops outside literals, nothing is left to pass over. -/
theorem endsTrivia_of_not_skip {s : Scan} (hs : ¬ s.InLiteral) {c : Char} {cs : List Char}
    (h : ¬ ((s.step c cs.head?).1 = .comment ∨ isBlank c)) : EndsTrivia (c :: cs) := by
  cases s with
  | code afterWord => exact .of_code h
  | literal quote | escape quote => exact absurd trivial hs
  | blockOpening => exact absurd (.inl rfl) h
  | lineComment =>
    refine absurd ?_ h
    by_cases hc : c = '\n'
    · exact .inr (hc ▸ by decide)
    · exact .inl (congrArg Prod.fst (if_neg hc))
  | blockComment star =>
    refine absurd (.inl ?_) h
    simp only [Scan.step]
    split <;> rfl

/-- What is passed over strips to blanks, and what is left starts with something else. -/
theorem exists_passed {s : Scan} (hs : ¬ s.InLiteral) (cs : List Char) :
    ∃ passed, cs = passed ++ skipTriviaFrom s cs ∧ (∀ c ∈ stripFrom s passed, isBlank c) ∧
      EndsTrivia (skipTriviaFrom s cs) := by
  induction cs generalizing s with
  | nil => exact ⟨[], rfl, nofun, endsTrivia_nil⟩
  | cons c cs ih =>
    rw [skipTriviaFrom_cons]
    split
    · rename_i hskip
      obtain ⟨passed, hpassed, hblank, hends⟩ := ih (not_inLiteral_step hs hskip)
      have hstep := step_passed hs (hpassed ▸ hskip) (by rw [← hpassed])
      rw [← hpassed] at hstep
      refine ⟨c :: passed, by rw [List.cons_append, ← hpassed], ?_, hends⟩
      rw [stripFrom_cons, hstep]
      split
      · rename_i hkept
        exact List.forall_mem_cons.2 ⟨isBlank_of_survives hskip hkept, hblank⟩
      · exact hblank
    · rename_i hstop
      exact ⟨[], rfl, nofun, endsTrivia_of_not_skip hs hstop⟩

/-! ## Where trivia ends -/

/-- A number of bytes that the first characters of a text take. -/
def IsBoundary (text : List Char) (n : Nat) : Prop := ∃ u v, text = u ++ v ∧ byteLength u = n

/-- Where trivia ends that starts at a position of a text. -/
def triviaEnd (text : List Char) (pos : Nat) : Nat :=
  byteLength text - byteLength (skipTrivia (dropBytes pos text))

/-- From a boundary of a text trivia is passed over up to a boundary that does not come before it:
rounds of blanks and comments, which strip to blanks, lead there, and no further round is possible. -/
theorem triviaEnd_spec {text : List Char} {pos : Nat} (h : IsBoundary text pos) :
    IsBoundary text (triviaEnd text pos) ∧ pos ≤ triviaEnd text pos ∧
      triviaEnd text pos ≤ byteLength text ∧
      dropBytes (triviaEnd text pos) text = skipRounds (dropBytes pos text) ∧
      allBlank (stripComments (slice text pos (triviaEnd text pos))) ∧
      EndsTrivia (dropBytes (triviaEnd text pos) text) := by
  obtain ⟨u, v, rfl, rfl⟩ := h
  obtain ⟨passed, hpassed, hblank, hends⟩ := exists_passed (s := .start) id v
  rw [← skipTrivia] at hpassed hends
  have hdrop : dropBytes (byteLength u) (u ++ v) = v := dropBytes_byteLength u v
  have htext : u ++ v = (u ++ passed) ++ skipTrivia v := by
    rw [List.append_assoc, ← hpassed]
  have hend : triviaEnd (u ++ v) (byteLength u) = byteLength (u ++ passed) := by
    rw [triviaEnd, hdrop, htext, byteLength_append _ (skipTrivia v), Nat.add_sub_cancel]
  have hrest : dropBytes (byteLength (u ++ passed)) (u ++ v) = skipTrivia v := by
    rw [htext, dropBytes_byteLength]
  have hslice : slice (u ++ v) (byteLength u) (byteLength (u ++ passed)) = passed := by
    rw [htext, List.append_assoc, slice_between]
  rw [hend, hrest, hslice, hdrop]
  refine ⟨⟨u ++ passed, skipTrivia v, htext, rfl⟩, ?_, ?_, (skipRounds_eq v).symm, ?_, hends⟩
  · rw [byteLength_append]
    exact Nat.le_add_right _ _
  · rw [htext, byteLength_append _ (skipTrivia v)]
    exact Nat.le_add_right _ _
  · exact List.all_eq_true.2 hblank

/-- Behind the first word a wide blank, a comment that its own signs do not end and a line comment
are passed over, up to a slash. -/
theorem triviaEnd_spec_slash :
    let text := "a\u3000/*/ x */ // y\n\u2003/ b".toList
    IsBoundary text 1 ∧ triviaEnd text 1 = 21 ∧ IsBoundary text (triviaEnd text 1) ∧
      allBlank (stripComments (slice text 1 (triviaEnd text 1))) ∧
      EndsTrivia (dropBytes (triviaEnd text 1) text) := by
  have hstart : IsBoundary "a\u3000/*/ x */ // y\n\u2003/ b".toList 1 :=
    ⟨['a'], "\u3000/*/ x */ // y\n\u2003/ b".toList, by decide, by decide⟩
  obtain ⟨hboundary, -, -, -, hblank, hends⟩ := triviaEnd_spec hstart
  exact ⟨hstart, by decide, hboundary, hblank, hends⟩

end ChaiBind.Text
