import ChaiBind.Proofs.Header.LayoutParts
import ChaiBind.Proofs.Text.LineBreaks
import ChaiBind.Proofs.Text.TopLevelCommas
import ChaiBind.Proofs.Text.Words

/-!
# Lists of enumerators

A list of enumerators is made of lexemes: names, integers, operators, parentheses and commas with
blanks and comments between them. Without its comments it is the code of its enumerators between
commas (`stripComments_text`), and it is cut into these if and only if it keeps its commas, which
the angles among its operators decide (`splitTopLevel_code_iff`). If it does, its enumerators are
read as they are named (`enumerators_text`), and it always does where no operator has an angle
(`enumerators_text_of_forall`).

* `stripFrom_textOf`: scanning goes through lexemes.
* `trim_beforeAssignment_lexemes`: the name of an enumerator.
-/

namespace ChaiBind

namespace Text

/-! ## Words and blanks -/

theorem ne_of_isWord_or_isBlank {c d : Char} (hc : isWord c ∨ isBlank c)
    (hd : isWord d = false ∧ isBlank d = false) : c ≠ d := by
  rintro rfl
  rw [hd.1, hd.2] at hc
  exact hc.elim nofun nofun

/-- Words and blanks enclose nothing. -/
theorem encloses_words_append {u : List Char} (hu : ∀ c ∈ u, isWord c ∨ isBlank c)
    (v : List Char) : Encloses 0 (u ++ v) ↔ Encloses 0 v := by
  refine encloses_append (fun c hc => ?_) (Int.le_refl 0) v
  have hne := fun {d} => ne_of_isWord_or_isBlank (d := d) (hu c hc)
  exact ⟨hne (by decide), hne (by decide), hne (by decide)⟩

/-- What stands before the equals sign, where that are words and blanks. -/
theorem beforeAssignment_of_words {u v : List Char} (hu : ∀ c ∈ u, isWord c ∨ isBlank c)
    (hv : ∀ c ∈ v.head?, c = '=') : beforeAssignment (u ++ v) = u := by
  have hpieces : ∀ afterWord, (splitTopLevelFrom '=' (.code 0 afterWord) (u ++ v)).headD [] = u := by
    induction u with
    | nil =>
      intro afterWord
      cases v with
      | nil => rfl
      | cons d v =>
        obtain rfl : d = '=' := hv d rfl
        rfl
    | cons c u ih =>
      intro afterWord
      obtain ⟨hc, hu⟩ := List.forall_mem_cons.1 hu
      have hne : ∀ d, (isWord d = false ∧ isBlank d = false) → c ≠ d := fun d =>
        ne_of_isWord_or_isBlank hc
      have hstep : (Nesting.code 0 afterWord).step '=' c = (false, .code 0 c.isAlphanum) := by
        simp [Nesting.step, isOpening, isClosing, hne '"' (by decide), hne '\'' (by decide),
          hne '<' (by decide), hne '(' (by decide), hne '[' (by decide), hne '{' (by decide),
          hne '>' (by decide), hne ')' (by decide), hne ']' (by decide), hne '}' (by decide),
          hne '=' (by decide)]
      obtain ⟨p, ps, hps⟩ := List.exists_cons_of_ne_nil
        (splitTopLevelFrom_ne_nil '=' (.code 0 c.isAlphanum) (u ++ v))
      have hrest := ih hu c.isAlphanum
      rw [hps] at hrest
      rw [List.cons_append, splitTopLevelFrom_cons, hstep, hps]
      exact congrArg (c :: ·) hrest
  exact hpieces false

end Text

namespace Header

open Text

/-! ## Lexemes -/

/-- The characters of operators, the parentheses and the comma. -/
def marks : List Char := "+-*/%<>=!&|^~?:(),".toList

/-- A part of a list of enumerators. A line comment includes its newline, and an operator of several
characters is several marks. -/
inductive Lexeme
  | blank (c : Char)
  | lineComment (note : List Char)
  | blockComment (note : List Char)
  /-- A name or an integer. -/
  | word (w : List Char)
  | mark (c : Char)
deriving DecidableEq, Repr

/-- Digits, perhaps with a prefix or a suffix; single quotes may separate them. -/
structure IsInteger (w : List Char) : Prop where
  digit : w.head?.any Char.isDigit
  characters : ∀ c ∈ w, c.isAlphanum ∨ c = '\''
  separators : OpensNoLiteral false w

instance (w : List Char) : Decidable (IsInteger w) :=
  decidable_of_iff
    (w.head?.any Char.isDigit ∧ (∀ c ∈ w, c.isAlphanum ∨ c = '\'') ∧ OpensNoLiteral false w)
    ⟨fun ⟨h₁, h₂, h₃⟩ => ⟨h₁, h₂, h₃⟩, fun h => ⟨h.digit, h.characters, h.separators⟩⟩

namespace Lexeme

/-- The lexeme as it is written. -/
def text : Lexeme → List Char
  | blank c => [c]
  | lineComment note => '/' :: '/' :: (note ++ ['\n'])
  | blockComment note => '/' :: '*' :: (note ++ ['*', '/'])
  | word w => w
  | mark c => [c]

/-- What is left of the text without comments. -/
def code : Lexeme → List Char
  | lineComment _ => ['\n']
  | blockComment note => note.filter (· = '\n')
  | l => l.text

/-- A blank or a comment. -/
def isTrivia : Lexeme → Bool
  | blank _ | lineComment _ | blockComment _ => true
  | word _ | mark _ => false

/-- The lexeme is read as one. -/
def WellFormed : Lexeme → Prop
  | blank c => isBlank c
  | lineComment note => '\n' ∉ note ∧ '}' ∉ note
  | blockComment note => ¬ ['*', '/'] <:+: note ∧ '}' ∉ note
  | word w => IsIdentifier w ∨ IsInteger w
  | mark c => c ∈ marks

instance : DecidablePred WellFormed
  | blank c => inferInstanceAs (Decidable (isBlank c))
  | lineComment note => inferInstanceAs (Decidable ('\n' ∉ note ∧ '}' ∉ note))
  | blockComment note => inferInstanceAs (Decidable (¬ ['*', '/'] <:+: note ∧ '}' ∉ note))
  | word w => inferInstanceAs (Decidable (IsIdentifier w ∨ IsInteger w))
  | mark c => inferInstanceAs (Decidable (c ∈ marks))

theorem isSquareOrCurly_eq_false {c : Char} (h : isWord c ∨ c = '\'' ∨ isBlank c) :
    isSquareOrCurly c = false := by
  rw [← Bool.not_eq_true]
  intro hc
  simp only [isSquareOrCurly, Bool.or_eq_true, decide_eq_true_eq] at hc
  rcases hc with ((rfl | rfl) | rfl) | rfl <;> exact absurd h (by decide)

theorem isPlainCode_mark {c : Char} (hc : c ∈ marks) (afterWord : Bool) :
    IsPlainCode afterWord [c] := by
  have hquote : c ≠ '"' ∧ c ≠ '\'' := by
    constructor <;> rintro rfl <;> exact absurd hc (by decide)
  exact ⟨⟨opensLiteral_eq_false hquote afterWord, trivial⟩,
    fun hi => absurd hi.length_le (by simp), fun hi => absurd hi.length_le (by simp)⟩

/-- A character of a name or an integer belongs to a word, or separates digits. -/
theorem isWord_or_of_mem {w : List Char} (hw : IsIdentifier w ∨ IsInteger w) {c : Char}
    (hc : c ∈ w) : isWord c ∨ c = '\'' := by
  rcases hw with hw | hw
  · exact .inl (hw.isWord_of_mem hc)
  · refine (hw.characters c hc).imp_left fun halnum => ?_
    rcases Bool.or_eq_true_iff.1 halnum with halpha | hdigit
    · exact isWord_of_isIdentifierStart (Bool.or_eq_true_iff.2 (.inl halpha))
    · have hnine : c.val ≤ '9'.val := of_decide_eq_true (Bool.and_eq_true_iff.1 hdigit).2
      exact isWord_of_isAlphanum (Nat.lt_of_le_of_lt hnine (by decide)) halnum

theorem isPlainCode_word {w : List Char} (hw : IsIdentifier w ∨ IsInteger w) (afterWord : Bool) :
    IsPlainCode afterWord w := by
  have hslash : '/' ∉ w := fun hmem => absurd (isWord_or_of_mem hw hmem) (by decide)
  rcases hw with hw | hw
  · exact isPlainCode_of_notMem ⟨notMem_of_isWord (fun _ => hw.isWord_of_mem) (by decide),
      notMem_of_isWord (fun _ => hw.isWord_of_mem) (by decide)⟩ hslash afterWord
  · exact ⟨hw.separators.of_false afterWord, fun hi => hslash (hi.subset List.mem_cons_self),
      fun hi => hslash (hi.subset List.mem_cons_self)⟩

variable {l : Lexeme} (h : l.WellFormed)
include h

/-- The scan goes on in code behind a lexeme, unless this is a slash that opens a comment. -/
theorem stripFrom_text {v : List Char} (hnext : l = mark '/' → ¬ Scan.Opens v.head?)
    (afterWord : Bool) :
    ∃ afterWord', stripFrom (.code afterWord) (l.text ++ v) =
      l.code ++ stripFrom (.code afterWord') v := by
  cases l with
  | blank c =>
    refine stripFrom_append_plain (isPlainCode_of_blank (List.forall_mem_singleton.2 h) afterWord)
      fun hlast => ?_
    obtain rfl : c = '/' := Option.some.inj hlast
    exact absurd h (by decide)
  | lineComment note =>
    have hopen : stripFrom (.code afterWord) (text (lineComment note) ++ v) =
        stripFrom .lineComment (note ++ '\n' :: v) := by
      have htext : text (lineComment note) ++ v = '/' :: '/' :: (note ++ '\n' :: v) := by simp [text]
      rw [htext]
      rfl
    refine ⟨false, ?_⟩
    rw [hopen, stripFrom_append, stripPart_lineComment h.1, after_lineComment h.1]
    rfl
  | blockComment note =>
    have hopen : stripFrom (.code afterWord) (text (blockComment note) ++ v) =
        stripFrom (.blockComment false) (note ++ '*' :: '/' :: v) := by
      have htext : text (blockComment note) ++ v = '/' :: '*' :: (note ++ '*' :: '/' :: v) := by
        simp [text]
      rw [htext]
      rfl
    have hstar : false = true → note.head? ≠ some '/' := nofun
    refine ⟨false, hopen.trans ?_⟩
    rw [stripFrom_eq_stripPart, (scan_blockComment h.1 hstar v none).2, ← stripFrom_eq_stripPart]
    rfl
  | word w =>
    refine stripFrom_append_plain (isPlainCode_word h afterWord) fun hlast => ?_
    exact absurd (isWord_or_of_mem h (List.mem_of_getLast? hlast)) (by decide)
  | mark c =>
    refine stripFrom_append_plain (isPlainCode_mark h afterWord) fun hlast => ?_
    obtain rfl : c = '/' := Option.some.inj hlast
    exact hnext rfl

theorem isBlank_of_mem_code (htrivia : l.isTrivia) : ∀ c ∈ l.code, isBlank c := by
  intro c hc
  cases l with
  | blank d => exact List.mem_singleton.1 hc ▸ h
  | lineComment note =>
    rw [List.mem_singleton.1 hc]
    decide
  | blockComment note =>
    rw [of_decide_eq_true (List.mem_filter.1 hc).2]
    decide
  | word | mark => cases htrivia

theorem opensNoLiteral_code : OpensNoLiteral false l.code := by
  by_cases htrivia : l.isTrivia
  · exact (isPlainCode_of_blank (isBlank_of_mem_code h htrivia) false).literals
  · cases l with
    | blank | lineComment | blockComment => exact absurd rfl htrivia
    | word w => exact (isPlainCode_word h false).literals
    | mark c => exact (isPlainCode_mark h false).literals

/-- What the code of a lexeme is made of. -/
theorem eq_mark_or_of_mem_code : ∀ c ∈ l.code, l = mark c ∨ isWord c ∨ c = '\'' ∨ isBlank c := by
  intro c hc
  by_cases htrivia : l.isTrivia
  · exact .inr (.inr (.inr (isBlank_of_mem_code h htrivia c hc)))
  · cases l with
    | blank | lineComment | blockComment => exact absurd rfl htrivia
    | word w => exact .inr ((isWord_or_of_mem h hc).imp_right .inl)
    | mark d => exact .inl (List.mem_singleton.1 hc ▸ rfl)

theorem isSquareOrCurly_of_mem_code : ∀ c ∈ l.code, isSquareOrCurly c = false := by
  intro c hc
  have hmarks : ∀ d ∈ marks, isSquareOrCurly d = false := by decide
  rcases eq_mark_or_of_mem_code h c hc with rfl | hc
  · exact hmarks c h
  · exact isSquareOrCurly_eq_false hc

theorem brace_notMem_text : '}' ∉ l.text := by
  intro hc
  cases l with
  | blank c =>
    rw [← List.mem_singleton.1 hc] at h
    exact absurd h (by decide)
  | lineComment note => simp [text, h.2] at hc
  | blockComment note => simp [text, h.2] at hc
  | word w => exact absurd (isWord_or_of_mem h hc) (by decide)
  | mark c =>
    rw [← List.mem_singleton.1 hc] at h
    exact absurd h (by decide)

end Lexeme

/-! ## Texts of lexemes -/

/-- What lexemes look like. -/
def textOf (ls : List Lexeme) : List Char := ls.flatMap Lexeme.text

/-- What stays of lexemes without their comments. -/
def codeOf (ls : List Lexeme) : List Char := ls.flatMap Lexeme.code

/-- No slash among some lexemes opens a comment with what follows it. -/
def Apart : List Lexeme → Prop
  | [] => True
  | l :: ls => (l = .mark '/' → ¬ Scan.Opens (textOf ls).head?) ∧ Apart ls

instance decidableApart : DecidablePred Apart
  | [] => isTrue trivial
  | l :: ls =>
    have := decidableApart ls
    inferInstanceAs (Decidable ((l = .mark '/' →
      ¬ ((textOf ls).head? = some '/' ∨ (textOf ls).head? = some '*')) ∧ Apart ls))

theorem codeOf_append (ls ms : List Lexeme) : codeOf (ls ++ ms) = codeOf ls ++ codeOf ms :=
  List.flatMap_append

theorem codeOf_intercalate_comma (ps : List (List Lexeme)) :
    codeOf ([.mark ','].intercalate ps) = [','].intercalate (ps.map codeOf) := by
  induction ps with
  | nil => rfl
  | cons p ps ih =>
    cases ps with
    | nil => simp
    | cons q ps =>
      rw [List.intercalate_cons_cons, codeOf_append, codeOf_append, ih, List.map_cons, List.map_cons,
        List.map_cons, List.intercalate_cons_cons]
      rfl

section

variable {ls : List Lexeme} (h : ∀ l ∈ ls, l.WellFormed)
include h

/-- Scanning goes through lexemes. -/
theorem stripFrom_textOf (hapart : Apart ls) (afterWord : Bool) :
    stripFrom (.code afterWord) (textOf ls) = codeOf ls := by
  induction ls generalizing afterWord with
  | nil => rfl
  | cons l ls ih =>
    obtain ⟨hl, hls⟩ := List.forall_mem_cons.1 h
    obtain ⟨afterWord', hstrip⟩ := Lexeme.stripFrom_text hl hapart.1 afterWord
    exact hstrip.trans (congrArg (l.code ++ ·) (ih hls hapart.2 afterWord'))

theorem opensNoLiteral_codeOf : OpensNoLiteral false (codeOf ls) := by
  induction ls with
  | nil => trivial
  | cons l ls ih =>
    obtain ⟨hl, hls⟩ := List.forall_mem_cons.1 h
    exact (Lexeme.opensNoLiteral_code hl).append (ih hls)

theorem isPiece_codeOf (hencloses : Encloses 0 (codeOf ls)) : IsPiece (codeOf ls) where
  literals := opensNoLiteral_codeOf h
  square := fun c hc => by
    obtain ⟨l, hl, hc⟩ := List.mem_flatMap.1 hc
    exact Lexeme.isSquareOrCurly_of_mem_code (h l hl) c hc
  encloses := hencloses

theorem isBlank_of_mem_codeOf (htrivia : ∀ l ∈ ls, l.isTrivia) : ∀ c ∈ codeOf ls, isBlank c := by
  intro c hc
  obtain ⟨l, hl, hc⟩ := List.mem_flatMap.1 hc
  exact Lexeme.isBlank_of_mem_code (h l hl) (htrivia l hl) c hc

theorem brace_notMem_textOf : '}' ∉ textOf ls := by
  intro hc
  obtain ⟨l, hl, hc⟩ := List.mem_flatMap.1 hc
  exact Lexeme.brace_notMem_text (h l hl) hc

end

/-! ## Enumerators -/

/-- A name, perhaps with an initializer, and blanks and comments around the name. -/
structure Enumerator where
  lead : List Lexeme
  name : List Char
  gap : List Lexeme
  /-- What follows the equals sign. -/
  initializer : Option (List Lexeme)
deriving DecidableEq, Repr

namespace Enumerator

/-- The equals sign and what follows it. -/
def assignment (e : Enumerator) : List Lexeme := e.initializer.elim [] (.mark '=' :: ·)

/-- The enumerator with what stands around it. -/
def lexemes (e : Enumerator) : List Lexeme := e.lead ++ .word e.name :: (e.gap ++ e.assignment)

/-- The parentheses of the initializer are balanced, and its commas stand inside them. -/
structure WellFormed (e : Enumerator) : Prop where
  lead : ∀ l ∈ e.lead, l.isTrivia
  name : IsIdentifier e.name
  gap : ∀ l ∈ e.gap, l.isTrivia
  initializer : ∀ ls ∈ e.initializer, Encloses 0 (codeOf ls)
  lexemes : ∀ l ∈ e.lexemes, l.WellFormed

instance (e : Enumerator) : Decidable e.WellFormed :=
  decidable_of_iff
    ((∀ l ∈ e.lead, l.isTrivia) ∧ IsIdentifier e.name ∧ (∀ l ∈ e.gap, l.isTrivia) ∧
      (∀ ls ∈ e.initializer, Encloses 0 (codeOf ls)) ∧ ∀ l ∈ e.lexemes, l.WellFormed)
    ⟨fun ⟨h₁, h₂, h₃, h₄, h₅⟩ => ⟨h₁, h₂, h₃, h₄, h₅⟩,
      fun h => ⟨h.lead, h.name, h.gap, h.initializer, h.lexemes⟩⟩

/-- The code in front of the equals sign. -/
def front (e : Enumerator) : List Char := codeOf e.lead ++ (e.name ++ codeOf e.gap)

theorem codeOf_lexemes (e : Enumerator) :
    codeOf e.lexemes = e.front ++ codeOf e.assignment := by
  have hname : codeOf (.word e.name :: (e.gap ++ e.assignment)) =
      e.name ++ codeOf (e.gap ++ e.assignment) := rfl
  rw [lexemes, codeOf_append, hname, codeOf_append, front, List.append_assoc, List.append_assoc]

variable {e : Enumerator} (h : e.WellFormed)
include h

theorem isBlank_of_mem_lead : ∀ c ∈ codeOf e.lead, isBlank c :=
  isBlank_of_mem_codeOf (fun l hl => h.lexemes l (List.mem_append_left _ hl)) h.lead

theorem isBlank_of_mem_gap : ∀ c ∈ codeOf e.gap, isBlank c := by
  refine isBlank_of_mem_codeOf (fun l hl => h.lexemes l ?_) h.gap
  exact List.mem_append_right _ (List.mem_cons_of_mem _ (List.mem_append_left _ hl))

/-- A name between blanks. -/
theorem isWord_or_of_mem_front : ∀ c ∈ e.front, isWord c ∨ isBlank c := by
  rw [front, List.forall_mem_append, List.forall_mem_append]
  exact ⟨fun c hc => .inr (isBlank_of_mem_lead h c hc), fun c hc => .inl (h.name.isWord_of_mem hc),
    fun c hc => .inr (isBlank_of_mem_gap h c hc)⟩

theorem isPiece : IsPiece (codeOf e.lexemes) := by
  refine isPiece_codeOf h.lexemes ?_
  rw [codeOf_lexemes, encloses_words_append (isWord_or_of_mem_front h), assignment]
  cases hinit : e.initializer with
  | none => rfl
  | some ls =>
    have hequals : codeOf (.mark '=' :: ls) = ['='] ++ codeOf ls := rfl
    rw [Option.elim_some, hequals, encloses_append (by decide) (Int.le_refl 0)]
    exact h.initializer ls hinit

/-- What stands before the equals sign of an enumerator, trimmed, is its name. -/
theorem trim_beforeAssignment {z : List Char}
    (hz : ∀ c ∈ (codeOf e.assignment ++ z).head?, c = '=') :
    trim (beforeAssignment (codeOf e.lexemes ++ z)) = e.name := by
  have hname : ∀ c ∈ e.name, isBlank c = false := fun c hc =>
    isBlank_eq_false_of_isWord (h.name.isWord_of_mem hc)
  have hstart : trim (codeOf e.lead ++ e.name) = trim e.name := by
    rw [trim, trim, trimStart, List.dropWhile_append_of_pos (isBlank_of_mem_lead h), ← trimStart]
  rw [codeOf_lexemes, List.append_assoc, beforeAssignment_of_words (isWord_or_of_mem_front h) hz,
    front, ← List.append_assoc, trim_append_of_blank (isBlank_of_mem_gap h), hstart]
  exact dropWhile_ends_eq_self hname

theorem trim_beforeAssignment_lexemes : trim (beforeAssignment (codeOf e.lexemes)) = e.name := by
  have hequals : ∀ c ∈ (codeOf e.assignment ++ []).head?, c = '=' := by
    rw [List.append_nil, assignment]
    cases e.initializer with
    | none => nofun
    | some ls => exact fun c hc => (Option.some.inj hc).symm
  have htrim := trim_beforeAssignment h hequals
  rwa [List.append_nil] at htrim

/-- An enumerator that leaves angles open has an initializer, which what follows goes with. -/
theorem trim_beforeAssignment_append (hangles : 0 < total angleStep (codeOf e.lexemes))
    (z : List Char) : trim (beforeAssignment (codeOf e.lexemes ++ z)) = e.name := by
  refine trim_beforeAssignment h ?_
  cases hinit : e.initializer with
  | none =>
    have hfront : total angleStep e.front = 0 := by
      refine total_angleStep_eq_zero fun c hc => ?_
      have hne := fun {d} => ne_of_isWord_or_isBlank (d := d) (isWord_or_of_mem_front h c hc)
      exact ⟨hne (by decide), hne (by decide)⟩
    have hnone : e.assignment = [] := by rw [assignment, hinit, Option.elim_none]
    rw [codeOf_lexemes, hnone, total_append, hfront] at hangles
    exact absurd hangles (by decide)
  | some ls =>
    rw [assignment, hinit]
    exact fun c hc => (Option.some.inj hc).symm

end Enumerator

/-! ## Lists -/

/-- Enumerators with commas between them; a comma may follow the last one. -/
structure EnumeratorList where
  enumerators : List Enumerator
  /-- What stands behind a comma at the end, or where there are no enumerators. -/
  closing : Option (List Lexeme)
deriving DecidableEq, Repr

namespace EnumeratorList

/-- What stands between the commas. -/
def slots (e : EnumeratorList) : List (List Lexeme) :=
  e.enumerators.map Enumerator.lexemes ++ e.closing.toList

/-- The list with its commas. -/
def lexemes (e : EnumeratorList) : List Lexeme := [.mark ','].intercalate e.slots

/-- The list as it is written. -/
def text (e : EnumeratorList) : List Char := textOf e.lexemes

/-- The names in order. -/
def names (e : EnumeratorList) : List (List Char) := e.enumerators.map Enumerator.name

/-- The enumerators without comments. -/
def codes (e : EnumeratorList) : List (List Char) := e.enumerators.map fun x => codeOf x.lexemes

/-- The list without comments up to a comma at the end. -/
def code (e : EnumeratorList) : List Char := [','].intercalate e.codes

/-- The parts are such that they are read as these parts. -/
structure WellFormed (e : EnumeratorList) : Prop where
  enumerators : ∀ x ∈ e.enumerators, x.WellFormed
  closing : ∀ ls ∈ e.closing, ∀ l ∈ ls, l.isTrivia ∧ l.WellFormed
  apart : Apart e.lexemes

instance (e : EnumeratorList) : Decidable e.WellFormed :=
  decidable_of_iff
    ((∀ x ∈ e.enumerators, x.WellFormed) ∧
      (∀ ls ∈ e.closing, ∀ l ∈ ls, l.isTrivia ∧ l.WellFormed) ∧ Apart e.lexemes)
    ⟨fun ⟨h₁, h₂, h₃⟩ => ⟨h₁, h₂, h₃⟩, fun h => ⟨h.enumerators, h.closing, h.apart⟩⟩

variable {e : EnumeratorList} (h : e.WellFormed)
include h

theorem wellFormed_of_mem_lexemes : ∀ l ∈ e.lexemes, l.WellFormed := by
  have hcomma : ∀ l ∈ [Lexeme.mark ','], l.WellFormed := by decide
  refine forall_mem_intercalate hcomma fun ls hls => ?_
  rcases List.mem_append.1 hls with hls | hls
  · obtain ⟨x, hx, rfl⟩ := List.mem_map.1 hls
    exact (h.enumerators x hx).lexemes
  · exact fun l hl => (h.closing ls (Option.mem_toList.1 hls) l hl).2

theorem brace_notMem_text : '}' ∉ e.text := brace_notMem_textOf (wellFormed_of_mem_lexemes h)

/-- Without its comments a list is the code of its enumerators between commas. -/
theorem stripComments_text :
    stripComments e.text = [','].intercalate (e.codes ++ e.closing.toList.map codeOf) := by
  have hslots : e.slots.map codeOf = e.codes ++ e.closing.toList.map codeOf := by
    rw [slots, List.map_append, List.map_map, codes]
    rfl
  rw [← hslots, ← codeOf_intercalate_comma]
  exact stripFrom_textOf (wellFormed_of_mem_lexemes h) h.apart false

theorem isPiece_of_mem_codes : ∀ p ∈ e.codes, IsPiece p := by
  intro p hp
  obtain ⟨x, hx, rfl⟩ := List.mem_map.1 hp
  exact Enumerator.isPiece (h.enumerators x hx)

/-- The list is cut into its enumerators if and only if it keeps its commas. -/
theorem splitTopLevel_code_iff (hne : e.enumerators ≠ []) :
    splitTopLevel ',' e.code = e.codes ↔ KeepsCommas 0 0 e.code :=
  splitTopLevelFrom_intercalate_iff (mt List.map_eq_nil_iff.1 hne) (isPiece_of_mem_codes h) 0 false

theorem map_trim_beforeAssignment :
    e.codes.map (fun v => trim (beforeAssignment v)) = e.names := by
  rw [codes, List.map_map]
  exact List.map_congr_left fun x hx =>
    Enumerator.trim_beforeAssignment_lexemes (h.enumerators x hx)

section

variable {ls : List Lexeme} (hls : e.closing = some ls)
include hls

theorem isBlank_of_mem_closing : ∀ c ∈ codeOf ls, isBlank c :=
  isBlank_of_mem_codeOf (fun l hl => (h.closing ls hls l hl).2) fun l hl => (h.closing ls hls l hl).1

theorem isPiece_closing : IsPiece (codeOf ls) := by
  have hblank := isBlank_of_mem_closing h hls
  have hencloses := encloses_words_append (fun c hc => .inr (hblank c hc)) []
  rw [List.append_nil] at hencloses
  exact isPiece_codeOf (fun l hl => (h.closing ls hls l hl).2) (hencloses.2 rfl)

theorem trim_beforeAssignment_closing : trim (beforeAssignment (codeOf ls)) = [] := by
  have hblank := isBlank_of_mem_closing h hls
  have hcode : beforeAssignment (codeOf ls ++ []) = codeOf ls :=
    beforeAssignment_of_words (fun c hc => .inr (hblank c hc)) nofun
  rw [List.append_nil] at hcode
  rw [hcode]
  exact trim_append_of_blank hblank []

end

/-- The pieces of a list that keeps its commas give the names, and nothing for what stands at the
end. -/
theorem exists_map_trim_beforeAssignment (hkeeps : KeepsCommas 0 0 e.code) :
    ∃ rest, (splitTopLevel ',' (stripComments e.text)).map (fun v => trim (beforeAssignment v)) =
      e.names ++ rest ∧ ∀ v ∈ rest, v = [] := by
  have hnames := map_trim_beforeAssignment h
  rw [stripComments_text h]
  cases hclosing : e.closing with
  | none =>
    rw [Option.toList_none, List.map_nil, List.append_nil, ← code]
    by_cases hne : e.enumerators = []
    · refine ⟨[[]], ?_, by simp⟩
      rw [code, codes, names, hne]
      rfl
    · refine ⟨[], ?_, nofun⟩
      rw [(splitTopLevel_code_iff h hne).2 hkeeps, hnames, List.append_nil]
  | some ls =>
    have hblank := isBlank_of_mem_closing h hclosing
    have hcomma : ',' ∉ codeOf ls := notMem_of_blanks hblank (by decide)
    have hnone := trim_beforeAssignment_closing h hclosing
    rw [Option.toList_some, List.map_singleton]
    rcases List.eq_nil_or_concat e.enumerators with hnil | ⟨xs, x, hxs⟩
    · refine ⟨[[]], ?_, by simp⟩
      rw [codes, names, hnil]
      simp only [List.map_nil, List.nil_append]
      rw [List.intercalate_singleton, splitTopLevel, splitTopLevelFrom_of_notMem hcomma,
        List.map_singleton, hnone]
    · rw [List.concat_eq_append] at hxs
      have hcodes : e.codes = xs.map (fun x => codeOf x.lexemes) ++ [codeOf x.lexemes] := by
        rw [codes, hxs, List.map_append, List.map_singleton]
      have hpieces := isPiece_of_mem_codes h
      rw [code] at hkeeps
      rw [hcodes] at hkeeps hpieces hnames
      rw [hcodes, List.append_assoc, List.singleton_append]
      rcases splitTopLevel_closing hpieces (isPiece_closing h hclosing) hcomma hkeeps with
        hsplit | ⟨hangles, hsplit⟩
      · refine ⟨[[]], ?_, by simp⟩
        rw [← hnames, hsplit]
        simp [hnone]
      · have hx := h.enumerators x (hxs ▸ List.mem_append_right xs List.mem_cons_self)
        refine ⟨[], ?_, nofun⟩
        rw [← hnames, hsplit, List.append_nil, List.map_append, List.map_append, List.map_singleton,
          List.map_singleton, Enumerator.trim_beforeAssignment_append hx hangles,
          Enumerator.trim_beforeAssignment_lexemes hx]

/-- The enumerators of a list that keeps its commas are read as they are named. -/
theorem enumerators_text (hkeeps : KeepsCommas 0 0 e.code) :
    Header.enumerators e.text = e.names.map String.ofList := by
  obtain ⟨rest, hvalues, hrest⟩ := exists_map_trim_beforeAssignment h hkeeps
  have hkept : e.names.filter (· ≠ []) = e.names := by
    refine List.filter_eq_self.2 fun name hname => ?_
    obtain ⟨x, hx, rfl⟩ := List.mem_map.1 hname
    exact decide_eq_true (h.enumerators x hx).name.ne_nil
  have hdropped : rest.filter (· ≠ []) = [] :=
    List.filter_eq_nil_iff.2 fun v hv => by simp [hrest v hv]
  rw [Header.enumerators, hvalues, List.filter_append, hkept, hdropped, List.append_nil]

/-- Without angles among the operators no comma is lost, and the enumerators are read as they are
named. -/
theorem enumerators_text_of_forall
    (hangles : ∀ x ∈ e.enumerators, ∀ l ∈ x.lexemes, l ≠ .mark '<' ∧ l ≠ .mark '>') :
    Header.enumerators e.text = e.names.map String.ofList := by
  refine enumerators_text h (keepsCommas_of_forall (forall_mem_intercalate (by decide) ?_) 0)
  intro p hp c hc
  obtain ⟨x, hx, rfl⟩ := List.mem_map.1 hp
  obtain ⟨l, hl, hc⟩ := List.mem_flatMap.1 hc
  have hcode := Lexeme.eq_mark_or_of_mem_code ((h.enumerators x hx).lexemes l hl) c hc
  constructor
  · rintro rfl
    exact hcode.elim (hangles x hx l hl).1 fun hplain => absurd hplain (by decide)
  · rintro rfl
    exact hcode.elim (hangles x hx l hl).2 fun hplain => absurd hplain (by decide)

end EnumeratorList

end Header

end ChaiBind
