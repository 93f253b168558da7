import ChaiBind.Header.Member
import ChaiBind.Proofs.Text.Parts
import ChaiBind.Proofs.Text.Positions

/-!
# Mentions of a name in the code of a file

How often a name is called, declared or otherwise followed by a parenthesis in a
file is a sum over the lines of the file, in which a line with a deleted member
counts nothing. Blanks at the ends of a line do not matter for this.

* `mentions_trim`: what a line mentions it mentions without the blanks around it.
* `occurrences_countedCode`: the sum over the lines without comments.
-/

namespace ChaiBind.Header

open Text

/-- A name and an opening parenthesis stand at a position with some character before it. -/
def callAt (name : List Char) (before : Option Char) (rest : List Char) : Bool :=
  !before.any isWord && (name ++ ['(']).isPrefixOf rest

theorem occurrences_eq (name code : List Char) :
    occurrences name code = countFrom (callAt name) none code := by
  rw [← countP_cursorsFrom none 0]
  rfl

/-- What takes a member away stands at a position. -/
def deletionAt (_before : Option Char) (rest : List Char) : Bool :=
  rest.head? = some '=' && startsWithWord "delete".toList (trimStart rest.tail)

theorem isDeleted_eq (line : List Char) :
    isDeleted line = decide (0 < countFrom deletionAt none line) := by
  rw [← any_cursors]
  rfl

section Cuts

variable {name : List Char}

/-- A character that is neither in the name nor a parenthesis cuts a text in two. -/
theorem countFrom_callAt_append_cons {d : Char} (hname : d ∉ name) (hopen : d ≠ '(')
    (before : Option Char) (u v : List Char) :
    countFrom (callAt name) before (u ++ d :: v) =
      countFrom (callAt name) before u + countFrom (callAt name) (some d) v := by
  have hd : d ∉ name ++ ['('] := by
    rw [List.mem_append, List.mem_singleton, not_or]
    exact ⟨hname, hopen⟩
  refine countFrom_append_cons (fun before x => ?_) before u
  rw [callAt, callAt, isPrefixOf_append_cons hd]

theorem countFrom_callAt_of_notMem {code : List Char} (h : '(' ∉ code) (before : Option Char) :
    countFrom (callAt name) before code = 0 := by
  refine countFrom_eq_zero fun before x hx => ?_
  rw [callAt, Bool.and_eq_false_iff, ← Bool.not_eq_true (List.isPrefixOf ..),
    List.isPrefixOf_iff_prefix]
  refine .inr fun hpre => h (hx.subset (hpre.subset ?_))
  exact List.mem_append_right name List.mem_cons_self

/-- What is outside words before a text does not matter. -/
theorem countFrom_callAt_some {d : Char} (hword : isWord d = false) (code : List Char) :
    countFrom (callAt name) (some d) code = occurrences name code := by
  rw [occurrences_eq]
  exact countFrom_congr_before (by simp [callAt, hword])

theorem occurrences_append_cons {d : Char} (hname : d ∉ name) (hopen : d ≠ '(')
    (hword : isWord d = false) (u v : List Char) :
    occurrences name (u ++ d :: v) = occurrences name u + occurrences name v := by
  rw [occurrences_eq, countFrom_callAt_append_cons hname hopen, countFrom_callAt_some hword,
    occurrences_eq name u]

theorem occurrences_of_notMem {code : List Char} (h : '(' ∉ code) : occurrences name code = 0 := by
  rw [occurrences_eq, countFrom_callAt_of_notMem h]

/-- A character other than a blank and an equals sign cuts a text in two, unless it is in `delete`. -/
theorem isDeleted_append_cons {d : Char} (hblank : isBlank d = false) (heq : d ≠ '=')
    (hword : isWord d = false) (u v : List Char) :
    isDeleted (u ++ d :: v) = (isDeleted u || isDeleted v) := by
  have hdelete : d ∉ "delete".toList := notMem_of_isWord (by decide) hword
  have hp : ∀ before x, deletionAt before (x ++ d :: v) = deletionAt before x := by
    intro before x
    cases x with
    | nil => simp [deletionAt, heq]
    | cons c x =>
      rw [deletionAt, deletionAt, List.cons_append, List.tail_cons, List.tail_cons,
        trimStart_append_cons hblank, startsWithWord_append_cons hdelete hword]
      rfl
  have hbefore : countFrom deletionAt (some d) v = countFrom deletionAt none v :=
    countFrom_congr_before rfl
  rw [isDeleted_eq, countFrom_append_cons hp, hbefore, isDeleted_eq, isDeleted_eq,
    Bool.eq_iff_iff, Bool.or_eq_true, decide_eq_true_eq, decide_eq_true_eq, decide_eq_true_eq]
  omega

end Cuts

/-! ## Blanks around a line -/

section Blanks

variable {name blanks : List Char} (hblanks : ∀ c ∈ blanks, isBlank c)
include hblanks

theorem occurrences_append_blank (hname : ∀ c ∈ name, isWord c) (line : List Char) :
    occurrences name (line ++ blanks) = occurrences name line := by
  have hopen : '(' ∉ blanks := notMem_of_blanks hblanks (by decide)
  cases blanks with
  | nil => rw [List.append_nil]
  | cons d ds =>
    have hd : isWord d = false := isWord_eq_false_of_isBlank (hblanks d List.mem_cons_self)
    have hmem : d ∉ name := notMem_of_isWord hname hd
    rw [List.mem_cons, not_or] at hopen
    rw [occurrences_append_cons hmem (Ne.symm hopen.1) hd, occurrences_of_notMem hopen.2,
      Nat.add_zero]

theorem occurrences_blank_append (hname : ∀ c ∈ name, isWord c) (line : List Char) :
    occurrences name (blanks ++ line) = occurrences name line := by
  have hopen : '(' ∉ blanks := notMem_of_blanks hblanks (by decide)
  rcases List.eq_nil_or_concat blanks with rfl | ⟨ds, d, rfl⟩
  · rfl
  · rw [List.concat_eq_append] at hopen hblanks ⊢
    have hd : isWord d = false := isWord_eq_false_of_isBlank (hblanks d (by simp))
    have hmem : d ∉ name := notMem_of_isWord hname hd
    rw [List.mem_append, List.mem_singleton, not_or] at hopen
    rw [List.append_assoc, List.singleton_append,
      occurrences_append_cons hmem (Ne.symm hopen.2) hd, occurrences_of_notMem hopen.1, Nat.zero_add]

theorem isDeleted_append_blank (line : List Char) :
    isDeleted (line ++ blanks) = isDeleted line := by
  have hhead : ∀ before x, x <:+ blanks → deletionAt before x = false := by
    intro before x hx
    cases x with
    | nil => rfl
    | cons c x =>
      have hc : c ≠ '=' := fun e =>
        notMem_of_blanks hblanks (by decide : isBlank '=' = false) (e ▸ hx.subset List.mem_cons_self)
      simp [deletionAt, hc]
  cases blanks with
  | nil => rw [List.append_nil]
  | cons d ds =>
    have hd : isWord d = false := isWord_eq_false_of_isBlank (hblanks d List.mem_cons_self)
    have hdelete : d ∉ "delete".toList := notMem_of_isWord (by decide) hd
    have hp : ∀ before x, deletionAt before (x ++ d :: ds) = deletionAt before x := by
      intro before x
      cases x with
      | nil => exact hhead before _ (List.suffix_refl _)
      | cons c x =>
        have hstart : startsWithWord "delete".toList (trimStart (x ++ d :: ds)) =
            startsWithWord "delete".toList (trimStart x) := by
          have hall : trimStart (d :: ds) = [] := List.dropWhile_eq_nil_iff.2 hblanks
          rw [trimStart, List.dropWhile_append]
          split
          · rename_i hempty
            rw [← trimStart, hall, trimStart, List.isEmpty_iff.1 hempty]
          · exact startsWithWord_append_cons hdelete hd _ _
        rw [deletionAt, deletionAt, List.cons_append, List.tail_cons, List.tail_cons, hstart]
        rfl
    have hzero : countFrom deletionAt (some d) ds = 0 :=
      countFrom_eq_zero fun before x hx => hhead before x (hx.trans (List.suffix_cons d ds))
    rw [isDeleted_eq, countFrom_append_cons hp, hzero, Nat.add_zero, isDeleted_eq]

theorem isDeleted_blank_append (line : List Char) :
    isDeleted (blanks ++ line) = isDeleted line := by
  induction blanks with
  | nil => rfl
  | cons c cs ih =>
    obtain ⟨hc, hcs⟩ := List.forall_mem_cons.1 hblanks
    have hne : c ≠ '=' := fun e => by
      rw [e] at hc
      exact absurd hc (by decide)
    have hbefore : countFrom deletionAt (some c) (cs ++ line) = countFrom deletionAt none (cs ++ line) :=
      countFrom_congr_before rfl
    have hfirst : deletionAt none (c :: (cs ++ line)) = false := by simp [deletionAt, hne]
    rw [← ih hcs, isDeleted_eq, List.cons_append, countFrom, hfirst, hbefore, isDeleted_eq,
      Bool.toNat_false, Nat.zero_add]

end Blanks

/-! ## Sums over lines -/

/-- How often a line mentions a name with a parenthesis; a deleted member counts for nothing. -/
def mentions (name line : List Char) : Nat := if isDeleted line then 0 else occurrences name line

/-- How often lines mention a name. -/
def mentionsIn (name : List Char) (lines : List (List Char)) : Nat := sumLines (mentions name) lines

theorem mentionsIn_append (name : List Char) (xs ys : List (List Char)) :
    mentionsIn name (xs ++ ys) = mentionsIn name xs + mentionsIn name ys := by
  rw [mentionsIn, sumLines_append, mentionsIn, mentionsIn]

section Sums

variable {name : List Char} (hname : ∀ c ∈ name, isWord c)
include hname

theorem mentions_of_blank {a b : List Char} (ha : ∀ c ∈ a, isBlank c) (hb : ∀ c ∈ b, isBlank c)
    (line : List Char) : mentions name (a ++ line ++ b) = mentions name line := by
  rw [mentions, isDeleted_append_blank hb, isDeleted_blank_append ha,
    occurrences_append_blank hb hname, occurrences_blank_append ha hname, mentions]

theorem mentions_dropLineEnding (line : List Char) :
    mentions name (dropLineEnding line) = mentions name line := by
  obtain ⟨ending, hending, hline⟩ := exists_append_dropLineEnding line
  conv_rhs => rw [hline, ← List.nil_append (dropLineEnding line)]
  exact (mentions_of_blank hname (List.forall_mem_nil _) hending _).symm

theorem mentions_trim (line : List Char) : mentions name (trim line) = mentions name line := by
  obtain ⟨a, b, ha, hb, hline⟩ := exists_append_trim line
  conv_rhs => rw [hline]
  exact (mentions_of_blank hname ha hb _).symm

theorem occurrences_intercalate (lines : List (List Char)) :
    occurrences name (['\n'].intercalate lines) = sumLines (occurrences name) lines := by
  have hnewline : '\n' ∉ name := notMem_of_isWord hname (by decide)
  induction lines with
  | nil => exact occurrences_of_notMem List.not_mem_nil
  | cons line lines ih =>
    cases lines with
    | nil =>
      rw [List.intercalate_singleton]
      rfl
    | cons line' lines =>
      rw [List.intercalate_cons_cons, List.append_assoc, List.singleton_append,
        occurrences_append_cons hnewline (by decide) (by decide), ih]
      rfl

/-- The counted code of a file mentions a name as often as its lines without comments do. -/
theorem occurrences_countedCode (text : List Char) :
    occurrences name (countedCode text) = mentionsIn name (inclusiveLines (stripComments text)) := by
  rw [countedCode, occurrences_intercalate hname, plainLines, mentionsIn]
  induction inclusiveLines (stripComments text) with
  | nil => rfl
  | cons line lines ih =>
    rw [List.map_cons, sumLines, ← ih, ← mentions_dropLineEnding hname, mentions, List.filter_cons]
    cases isDeleted (dropLineEnding line) with
    | false => rfl
    | true => exact (Nat.zero_add _).symm

end Sums

end ChaiBind.Header
