import ChaiBind.Proofs.Text.StrippedLines
import ChaiBind.Text.Cursor
import Mathlib.Data.List.Basic

/-!
# Texts with other line endings

`withReturns` puts a carriage return before each newline of a text. Both characters are
blank and neither belongs to a word, so that what is read off the start of a text is read
in the same way (`takeIdentifier_withReturns`, `isPrefixOf?_withReturns`), and what follows
has its line endings changed as well.

Of a part that is taken out of such a text without its comments only some newlines may
still have the carriage return (`HasReturns`); its lines are the same but for blanks at
their ends (`HasReturns.map_trim_inclusiveLines`).
-/

namespace ChaiBind.Text

/-- The text with a carriage return before each newline. -/
def withReturns : List Char → List Char
  | [] => []
  | c :: cs => if c = '\n' then '\r' :: '\n' :: withReturns cs else c :: withReturns cs

@[simp] theorem withReturns_nil : withReturns [] = [] := rfl

@[simp] theorem withReturns_newline (cs : List Char) :
    withReturns ('\n' :: cs) = '\r' :: '\n' :: withReturns cs := rfl

theorem withReturns_cons {c : Char} (hc : c ≠ '\n') (cs : List Char) :
    withReturns (c :: cs) = c :: withReturns cs := if_neg hc

@[simp] theorem withReturns_append (u v : List Char) :
    withReturns (u ++ v) = withReturns u ++ withReturns v := by
  induction u with
  | nil => rfl
  | cons c u ih =>
    rw [List.cons_append]
    by_cases hc : c = '\n'
    · subst hc
      rw [withReturns_newline, withReturns_newline, ih]
      rfl
    · rw [withReturns_cons hc, withReturns_cons hc, ih]
      rfl

theorem withReturns_of_notMem {cs : List Char} (h : '\n' ∉ cs) : withReturns cs = cs := by
  induction cs with
  | nil => rfl
  | cons c cs ih =>
    rw [List.mem_cons, not_or] at h
    rw [withReturns_cons (Ne.symm h.1), ih h.2]

theorem length_withReturns (cs : List Char) :
    (withReturns cs).length = cs.length + cs.count '\n' := by
  induction cs with
  | nil => rfl
  | cons c cs ih =>
    by_cases hc : c = '\n'
    · subst hc
      rw [withReturns_newline, List.count_cons_self]
      simp only [List.length_cons, ih]
      omega
    · rw [withReturns_cons hc, List.length_cons, List.length_cons, ih, List.count_cons_of_ne hc]
      omega

theorem byteLength_withReturns (cs : List Char) :
    byteLength (withReturns cs) = byteLength cs + cs.count '\n' := by
  induction cs with
  | nil => rfl
  | cons c cs ih =>
    by_cases hc : c = '\n'
    · subst hc
      have hreturn : '\r'.utf8Size = 1 := rfl
      rw [withReturns_newline, byteLength_cons, byteLength_cons, byteLength_cons, ih, hreturn,
        List.count_cons_self]
      omega
    · rw [withReturns_cons hc, byteLength_cons, byteLength_cons, ih, List.count_cons_of_ne hc,
        Nat.add_assoc]

/-! ## Starts of a text -/

section

variable {p : Char → Bool} (hp : p '\r' = p '\n')
include hp

theorem any_head?_withReturns (cs : List Char) :
    (withReturns cs).head?.any p = cs.head?.any p := by
  cases cs with
  | nil => rfl
  | cons c cs =>
    by_cases hc : c = '\n'
    · subst hc
      exact hp
    · rw [withReturns_cons hc]
      rfl

theorem takeWhile_withReturns (cs : List Char) :
    (withReturns cs).takeWhile p = withReturns (cs.takeWhile p) := by
  induction cs with
  | nil => rfl
  | cons c cs ih =>
    by_cases hc : c = '\n'
    · subst hc
      rw [withReturns_newline, List.takeWhile_cons, List.takeWhile_cons, List.takeWhile_cons, hp,
        ih]
      cases p '\n' <;> rfl
    · rw [withReturns_cons hc, List.takeWhile_cons, List.takeWhile_cons, ih]
      cases p c with
      | true => exact (withReturns_cons hc _).symm
      | false => rfl

theorem dropWhile_withReturns (cs : List Char) :
    (withReturns cs).dropWhile p = withReturns (cs.dropWhile p) := by
  induction cs with
  | nil => rfl
  | cons c cs ih =>
    by_cases hc : c = '\n'
    · subst hc
      rw [withReturns_newline, List.dropWhile_cons, List.dropWhile_cons, List.dropWhile_cons, hp,
        ih]
      cases p '\n' <;> rfl
    · rw [withReturns_cons hc, List.dropWhile_cons, List.dropWhile_cons, ih]
      cases p c with
      | true => rfl
      | false => exact (withReturns_cons hc _).symm

end

@[simp] theorem trimStart_withReturns (cs : List Char) :
    trimStart (withReturns cs) = withReturns (trimStart cs) := dropWhile_withReturns rfl cs

@[simp] theorem dropSpaces_withReturns (cs : List Char) :
    dropSpaces (withReturns cs) = withReturns (dropSpaces cs) := dropWhile_withReturns rfl cs

@[simp] theorem leadingBlank_withReturns (cs : List Char) :
    leadingBlank (withReturns cs) = withReturns (leadingBlank cs) := takeWhile_withReturns rfl cs

theorem head?_withReturns_eq_some {d : Char} (hd : d ≠ '\n' ∧ d ≠ '\r') (cs : List Char) :
    (withReturns cs).head? = some d ↔ cs.head? = some d := by
  cases cs with
  | nil => rfl
  | cons c cs =>
    by_cases hc : c = '\n'
    · subst hc
      simp [hd.1.symm, hd.2.symm]
    · rw [withReturns_cons hc]
      rfl

/-- A word on one line starts the same texts. -/
theorem isPrefixOf?_withReturns {w : List Char} (hw : '\n' ∉ w ∧ '\r' ∉ w) (cs : List Char) :
    w.isPrefixOf? (withReturns cs) = (w.isPrefixOf? cs).map withReturns := by
  induction w generalizing cs with
  | nil => rfl
  | cons d w ih =>
    simp only [List.mem_cons, not_or] at hw
    cases cs with
    | nil => rfl
    | cons c cs =>
      by_cases hc : c = '\n'
      · subst hc
        rw [withReturns_newline, List.isPrefixOf?, List.isPrefixOf?,
          beq_eq_false_iff_ne.2 (Ne.symm hw.1.1), beq_eq_false_iff_ne.2 (Ne.symm hw.2.1)]
        rfl
      · rw [withReturns_cons hc, List.isPrefixOf?, List.isPrefixOf?, ih ⟨hw.1.2, hw.2.2⟩]
        split <;> rfl

theorem afterWord?_withReturns {w : List Char} (hw : '\n' ∉ w ∧ '\r' ∉ w) (cs : List Char) :
    afterWord? w (withReturns cs) = (afterWord? w cs).map withReturns := by
  rw [afterWord?, isPrefixOf?_withReturns hw, Option.filter_map, afterWord?]
  simp only [Function.comp_def, any_head?_withReturns (p := isWord) rfl]

theorem takeIdentifier_withReturns (cs : List Char) :
    takeIdentifier (withReturns cs) = (takeIdentifier cs).map fun p => (p.1, withReturns p.2) := by
  cases cs with
  | nil => rfl
  | cons c cs =>
    by_cases hc : c = '\n'
    · subst hc
      rfl
    · have hword : '\n' ∉ cs.takeWhile isWord := fun h =>
        absurd (List.mem_takeWhile_imp h) (by decide)
      rw [withReturns_cons hc, takeIdentifier, takeIdentifier, takeWhile_withReturns rfl,
        dropWhile_withReturns rfl, withReturns_of_notMem hword]
      split <;> rfl

/-! ## Lines -/

theorem withReturns_append_newline {line : List Char} (h : '\n' ∉ line) (rest : List Char) :
    withReturns (line ++ '\n' :: rest) = (line ++ ['\r']) ++ '\n' :: withReturns rest := by
  rw [withReturns_append, withReturns_of_notMem h, withReturns_newline, List.append_assoc,
    List.singleton_append]

theorem newline_notMem_return {line : List Char} (h : '\n' ∉ line) : '\n' ∉ line ++ ['\r'] := by
  rw [List.mem_append, not_or]
  exact ⟨h, by decide⟩

theorem inclusiveLines_withReturns (cs : List Char) :
    inclusiveLines (withReturns cs) = (inclusiveLines cs).map withReturns := by
  induction cs using linesInduction with
  | last line hline =>
    rw [withReturns_of_notMem hline]
    by_cases hnil : line = []
    · subst hnil
      rfl
    · rw [inclusiveLines_of_notMem hline hnil, List.map_singleton, withReturns_of_notMem hline]
  | cons line rest hline ih =>
    have hends := withReturns_append_newline hline []
    rw [withReturns_append_newline hline,
      inclusiveLines_append_newline (newline_notMem_return hline),
      inclusiveLines_append_newline hline, ih, List.map_cons, hends]
    rfl

/-! ## Some newlines with returns -/

/-- The first text has no carriage returns, and the second one is the same with a carriage return
before some of its newlines. -/
inductive HasReturns : List Char → List Char → Prop
  | nil : HasReturns [] []
  | cons {c : Char} {cs ds : List Char} (ordinary : c ≠ '\r') (rest : HasReturns cs ds) :
      HasReturns (c :: cs) (c :: ds)
  | newline {cs ds : List Char} (rest : HasReturns cs ds) :
      HasReturns ('\n' :: cs) ('\r' :: '\n' :: ds)

namespace HasReturns

theorem exists_append {u v ds : List Char} (h : HasReturns (u ++ v) ds) :
    ∃ u' v', ds = u' ++ v' ∧ HasReturns u u' ∧ HasReturns v v' := by
  induction u generalizing ds with
  | nil => exact ⟨[], ds, rfl, .nil, h⟩
  | cons c u ih =>
    rw [List.cons_append] at h
    cases h with
    | cons hc rest =>
      obtain ⟨u', v', rfl, hu, hv⟩ := ih rest
      exact ⟨c :: u', v', rfl, .cons hc hu, hv⟩
    | newline rest =>
      obtain ⟨u', v', rfl, hu, hv⟩ := ih rest
      exact ⟨'\r' :: '\n' :: u', v', rfl, hu.newline, hv⟩

theorem eq_of_notMem {cs ds : List Char} (h : HasReturns cs ds) (hcs : '\n' ∉ cs) : ds = cs := by
  induction h with
  | nil => rfl
  | cons _ _ ih =>
    rw [List.mem_cons, not_or] at hcs
    rw [ih hcs.2]
  | newline => exact absurd List.mem_cons_self hcs

theorem eq_nil_iff {cs ds : List Char} (h : HasReturns cs ds) : ds = [] ↔ cs = [] := by
  cases h <;> simp

theorem getLast?_eq {cs ds : List Char} (h : HasReturns cs ds) : ds.getLast? = cs.getLast? := by
  induction h with
  | nil => rfl
  | cons _ _ ih => rw [List.getLast?_cons, List.getLast?_cons, ih]
  | newline _ ih =>
    rw [List.getLast?_cons, List.getLast?_cons, List.getLast?_cons, ih, Option.getD_some]

theorem isBlank_of_mem {cs ds : List Char} (h : HasReturns cs ds) (hcs : ∀ c ∈ cs, isBlank c) :
    ∀ c ∈ ds, isBlank c := by
  induction h with
  | nil => exact hcs
  | cons _ _ ih =>
    obtain ⟨hc, hcs⟩ := List.forall_mem_cons.1 hcs
    exact List.forall_mem_cons.2 ⟨hc, ih hcs⟩
  | newline _ ih =>
    obtain ⟨hnewline, hcs⟩ := List.forall_mem_cons.1 hcs
    exact List.forall_mem_cons.2 ⟨rfl, List.forall_mem_cons.2 ⟨hnewline, ih hcs⟩⟩

/-! ### Trimming -/

theorem trimStart {cs ds : List Char} (h : HasReturns cs ds) :
    HasReturns (trimStart cs) (trimStart ds) := by
  induction h with
  | nil => exact .nil
  | cons hc rest ih =>
    rw [Text.trimStart, Text.trimStart, List.dropWhile_cons, List.dropWhile_cons]
    split
    · exact ih
    · exact .cons hc rest
  | newline _ ih => exact ih

theorem trimEnd {cs ds : List Char} (h : HasReturns cs ds) :
    HasReturns (trimEnd cs) (trimEnd ds) := by
  obtain ⟨b, hb, hsplit⟩ := exists_append_trimEnd cs
  have hlast : (Text.trimEnd cs).getLast?.any isBlank = false := by
    rw [Text.trimEnd, List.getLast?_reverse]
    exact any_head?_dropWhile isBlank _
  rw [hsplit] at h
  obtain ⟨u, b', rfl, hu, hb'⟩ := h.exists_append
  have hend : Text.trimEnd u = u := by
    rw [Text.trimEnd, dropWhile_eq_self, List.reverse_reverse]
    rwa [List.head?_reverse, hu.getLast?_eq]
  rwa [trimEnd_append_of_blank (hb'.isBlank_of_mem hb), hend]

theorem trim {cs ds : List Char} (h : HasReturns cs ds) : HasReturns (trim cs) (trim ds) :=
  h.trimStart.trimEnd

/-- The ending of a line is trimmed off with its carriage return. -/
theorem map_trim_inclusiveLines {cs ds : List Char} (h : HasReturns cs ds) :
    (inclusiveLines ds).map Text.trim = (inclusiveLines cs).map Text.trim := by
  induction cs using linesInduction generalizing ds with
  | last line hline => rw [h.eq_of_notMem hline]
  | cons line rest hline ih =>
    obtain ⟨line', ds, rfl, hfirst, hrest⟩ := h.exists_append
    obtain rfl := hfirst.eq_of_notMem hline
    cases hrest with
    | cons _ hrest =>
      rw [inclusiveLines_append_newline hline, inclusiveLines_append_newline hline, List.map_cons,
        List.map_cons, ih hrest]
    | @newline _ ds hrest =>
      have hsplit : line' ++ '\r' :: '\n' :: ds = (line' ++ ['\r']) ++ '\n' :: ds := by simp
      rw [hsplit, inclusiveLines_append_newline (newline_notMem_return hline),
        inclusiveLines_append_newline hline,
        List.map_cons, List.map_cons, ih hrest, trim_append_of_blank (by decide),
        trim_append_of_blank (by decide), trim_append_of_blank (by decide)]

end HasReturns

/-! ### Stripping -/

namespace Scan

theorem step_head?_withReturns (s : Scan) (c : Char) (cs : List Char) :
    s.step c (withReturns cs).head? = s.step c cs.head? := by
  cases cs with
  | nil => rfl
  | cons d cs =>
    by_cases hd : d = '\n'
    · subst hd
      exact step_eq_of_not_opens s c (by simp [Opens]) (by simp [Opens])
    · rw [withReturns_cons hd]
      rfl

/-- Only a backslash in a literal starts an escape. -/
theorem eq_of_step_eq_escape {s : Scan} {c quote : Char} {next : Option Char}
    (h : (s.step c next).2 = .escape quote) : c = '\\' ∧ (s.step c next).1 = .literal := by
  have hstep := s.steps_step c next
  generalize s.step c next = x at h hstep ⊢
  cases hstep with
  | escapes hc => exact ⟨hc, rfl⟩
  | _ => cases h

/-- Outside an escape a carriage return does not change what follows its newline. -/
theorem step_return {s : Scan} (hs : ∀ quote, s ≠ .escape quote) (next next' : Option Char) :
    ((s.step '\r' (some '\n')).2.step '\n' next).2 = (s.step '\n' next').2 := by
  cases s with
  | code | lineComment | blockOpening => rfl
  | blockComment star => cases star <;> rfl
  | literal quote =>
    by_cases hquote : '\r' = quote
    · subst hquote
      rfl
    · simp [step, hquote]
  | escape quote => exact absurd rfl (hs quote)

end Scan

/-- Comments leave the newlines at their ends alone, without carriage returns. -/
theorem hasReturns_stripFrom {s : Scan} {cs : List Char} (hreturn : '\r' ∉ cs)
    (hsplice : ¬ ['\\', '\n'] <:+: cs) (hs : ∀ quote, s = .escape quote → cs.head? ≠ some '\n') :
    HasReturns (stripFrom s cs) (stripFrom s (withReturns cs)) := by
  induction cs generalizing s with
  | nil => exact .nil
  | cons c cs ih =>
    rw [List.mem_cons, not_or] at hreturn
    have hrest : ¬ ['\\', '\n'] <:+: cs := fun h =>
      hsplice (h.trans (List.suffix_cons c cs).isInfix)
    have hescape : ∀ next quote, (s.step c next).2 = .escape quote → cs.head? ≠ some '\n' := by
      intro next quote hstep hhead
      obtain rfl := (Scan.eq_of_step_eq_escape hstep).1
      obtain ⟨ds, rfl⟩ := List.head?_eq_some_iff.1 hhead
      exact hsplice ⟨[], ds, rfl⟩
    rw [stripFrom_cons]
    by_cases hc : c = '\n'
    · subst hc
      have hplain : ∀ quote, s ≠ .escape quote := fun quote h => hs quote h rfl
      have hnext := ih hreturn.2 hrest (hescape cs.head?)
      rw [if_pos (survives_newline _), withReturns_newline, stripFrom_cons, stripFrom_cons,
        if_pos (survives_newline _), List.head?_cons, Scan.step_return hplain _ cs.head?]
      split
      · exact hnext.newline
      · exact .cons (by decide) hnext
    · rw [withReturns_cons hc, stripFrom_cons, Scan.step_head?_withReturns]
      split
      · exact .cons (Ne.symm hreturn.1) (ih hreturn.2 hrest (hescape _))
      · exact ih hreturn.2 hrest (hescape _)

theorem hasReturns_stripComments {cs : List Char} (hreturn : '\r' ∉ cs)
    (hsplice : ¬ ['\\', '\n'] <:+: cs) :
    HasReturns (stripComments cs) (stripComments (withReturns cs)) :=
  hasReturns_stripFrom hreturn hsplice nofun

/-! ## Without the returns -/

/-- The text with a newline for each carriage return and newline. -/
def lineFeeds : List Char → List Char
  | '\r' :: '\n' :: cs => '\n' :: lineFeeds cs
  | c :: cs => c :: lineFeeds cs
  | [] => []

theorem HasReturns.lineFeeds_eq {cs ds : List Char} (h : HasReturns cs ds) : lineFeeds ds = cs := by
  induction h with
  | nil => rfl
  | cons hc _ ih =>
    rw [lineFeeds, ih]
    exact fun _ e => absurd e hc
  | newline _ ih => rw [lineFeeds, ih]

end ChaiBind.Text
