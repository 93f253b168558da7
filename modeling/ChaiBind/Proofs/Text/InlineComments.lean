import ChaiBind.Proofs.Text.Trivia

/-!
# Comments on one line

Block comments without newlines, one right after the other, leave nothing of themselves
(`BlockComments.scan`), and nothing else in code does with code behind it
(`blockComments_of_dropped`).
-/

namespace ChaiBind.Text

/-- Block comments on one line, one right after the other. -/
inductive BlockComments : List Char → Prop
  | nil : BlockComments []
  | cons {note rest : List Char} (newline : '\n' ∉ note) (closing : ¬ ['*', '/'] <:+: note)
      (comments : BlockComments rest) : BlockComments ('/' :: '*' :: (note ++ '*' :: '/' :: rest))

namespace BlockComments

/-- Nothing is left of block comments on one line, and code follows them. -/
theorem scan {comments : List Char} (h : BlockComments comments) (next : Option Char) :
    Scan.start.after comments next = .start ∧ stripPart .start comments next = [] := by
  induction h with
  | nil => exact ⟨rfl, rfl⟩
  | @cons note rest hnewline hclosing _ ih =>
    have hstar : false = true → note.head? ≠ some '/' := nofun
    obtain ⟨hafter, hstrip⟩ := scan_blockComment hclosing hstar rest next
    have hnote : note.filter (· = '\n') = [] := by
      rw [List.filter_eq_nil_iff]
      rintro c hc hnew
      exact hnewline (of_decide_eq_true hnew ▸ hc)
    rw [hnote] at hstrip
    exact ⟨hafter.trans ih.1, hstrip.trans ih.2⟩

/-- Behind a letter or digit they are read as elsewhere in code. -/
theorem scan_code {comments : List Char} (h : BlockComments comments) (hne : comments ≠ [])
    (afterWord : Bool) (next : Option Char) :
    (Scan.code afterWord).after comments next = .start ∧
      stripPart (.code afterWord) comments next = [] := by
  have hstart := h.scan next
  cases h with
  | nil => exact absurd rfl hne
  | cons => exact hstart

end BlockComments

/-! ## What leaves nothing -/

/-- What leaves nothing starts with a character that is dropped. -/
theorem dropped_of_stripPart_eq_nil {s : Scan} {c : Char} {cs : List Char} {next : Option Char}
    (h : stripPart s (c :: cs) next = []) :
    ¬ survives ((s.step c (cs.head?.or next)).1, c) ∧
      stripPart (s.step c (cs.head?.or next)).2 cs next = [] := by
  rw [stripPart_cons] at h
  split at h
  · cases h
  · rename_i hdropped
    exact ⟨hdropped, h⟩

/-- A line comment that leaves nothing is not over. -/
theorem after_lineComment_of_dropped {cs : List Char} {next : Option Char}
    (h : stripPart .lineComment cs next = []) : Scan.lineComment.after cs next = .lineComment := by
  refine after_lineComment (fun hmem => ?_) next
  have hkept : '\n' ∈ stripPart .lineComment cs next := by
    obtain ⟨u, v, rfl⟩ := List.append_of_mem hmem
    rw [stripPart_append, stripPart_cons, if_pos (survives_newline _)]
    exact List.mem_append_right _ List.mem_cons_self
  rw [h] at hkept
  cases hkept

/-- A block comment that leaves nothing and is over has its end in the text. A star that comes before
counts as if it stood at the start. -/
theorem exists_of_blockComment_dropped {star : Bool} {cs : List Char} {next : Option Char}
    (hstrip : stripPart (.blockComment star) cs next = []) {afterWord : Bool}
    (hafter : (Scan.blockComment star).after cs next = .code afterWord) :
    ∃ note rest, (if star then '*' :: cs else cs) = note ++ '*' :: '/' :: rest ∧ '\n' ∉ note ∧
      ¬ ['*', '/'] <:+: note ∧ stripPart .start rest next = [] ∧
      Scan.start.after rest next = .code afterWord := by
  induction cs generalizing star with
  | nil => cases hafter
  | cons c cs ih =>
    obtain ⟨hdropped, hrest⟩ := dropped_of_stripPart_eq_nil hstrip
    have hnewline := (not_survives_iff.1 hdropped).2
    rw [Scan.after_cons] at hafter
    by_cases hend : star && c = '/'
    · rw [Scan.step, if_pos hend] at hrest hafter
      rw [Bool.and_eq_true, decide_eq_true_eq] at hend
      obtain ⟨rfl, rfl⟩ := hend
      exact ⟨[], cs, rfl, List.not_mem_nil, by simp, hrest, hafter⟩
    · rw [Scan.step, if_neg hend] at hrest hafter
      obtain ⟨note, rest, hcs, hnote, hclosing, htail⟩ := ih hrest hafter
      have hbehind : ∃ note, c :: cs = note ++ '*' :: '/' :: rest ∧ '\n' ∉ note ∧
          ¬ ['*', '/'] <:+: note := by
        by_cases hc : c = '*'
        · subst hc
          exact ⟨note, hcs, hnote, hclosing⟩
        · rw [if_neg (by simpa using hc)] at hcs
          refine ⟨c :: note, congrArg (c :: ·) hcs, ?_, ?_⟩
          · rw [List.mem_cons, not_or]
            exact ⟨hnewline.symm, hnote⟩
          · rw [List.infix_cons_iff, List.cons_prefix_cons]
            rintro (⟨rfl, -⟩ | hinfix)
            · exact hc rfl
            · exact hclosing hinfix
      obtain ⟨note, hcs, hnote, hclosing⟩ := hbehind
      cases star with
      | false => exact ⟨note, rest, hcs, hnote, hclosing, htail⟩
      | true =>
        refine ⟨'*' :: note, rest, congrArg ('*' :: ·) hcs, ?_, ?_, htail⟩
        · rw [List.mem_cons, not_or]
          exact ⟨by decide, hnote⟩
        · rw [List.infix_cons_iff, List.cons_prefix_cons]
          rintro (⟨-, hslash⟩ | hinfix)
          · obtain ⟨note, rfl⟩ := hslash
            obtain ⟨rfl, -⟩ := List.cons.inj hcs
            exact hend rfl
          · exact hclosing hinfix

/-- What leaves nothing of a part of the code, with code behind it, is made of block comments on one
line. -/
theorem blockComments_of_dropped {afterWord afterWord' : Bool} {cs : List Char} {next : Option Char}
    (hnext : ¬ Scan.Opens next) (hstrip : stripPart (.code afterWord) cs next = [])
    (hafter : (Scan.code afterWord).after cs next = .code afterWord') : BlockComments cs := by
  induction hn : cs.length using Nat.strongRecOn generalizing afterWord cs with
  | ind n ih =>
    cases cs with
    | nil => exact .nil
    | cons c cs =>
      obtain ⟨hdropped, hrest⟩ := dropped_of_stripPart_eq_nil hstrip
      obtain ⟨rfl, hopens⟩ := Scan.step_code_eq_comment_iff.1 (not_survives_iff.1 hdropped).1
      rw [Scan.after_cons] at hafter
      cases cs with
      | nil => exact absurd hopens hnext
      | cons d cs =>
        rcases hopens with hd | hd
        · obtain rfl := Option.some.inj hd
          have hline : stripPart .lineComment ('/' :: cs) next = [] := hrest
          exact absurd ((after_lineComment_of_dropped hline).symm.trans hafter) nofun
        · obtain rfl := Option.some.inj hd
          obtain ⟨-, hblock⟩ := dropped_of_stripPart_eq_nil (s := .blockOpening) hrest
          have hstrip : stripPart (.blockComment false) cs next = [] := hblock
          obtain ⟨note, rest, hcs, hnote, hclosing, hleft, hcode⟩ :=
            exists_of_blockComment_dropped hstrip hafter
          obtain rfl : cs = note ++ '*' :: '/' :: rest := hcs
          have hlt : rest.length < n := by
            rw [← hn]
            simp only [List.length_cons, List.length_append]
            omega
          exact .cons hnote hclosing (ih _ hlt hleft hcode rfl)

/-- Of a literal all is left. -/
theorem eq_nil_of_literal_dropped {s : Scan} (hs : s.InLiteral) {cs : List Char}
    {next : Option Char} (h : stripPart s cs next = []) : cs = [] := by
  cases cs with
  | nil => rfl
  | cons c cs =>
    have hcomment := (not_survives_iff.1 (dropped_of_stripPart_eq_nil h).1).1
    exact absurd hcomment (hs.layer_ne_comment c _)

end ChaiBind.Text
