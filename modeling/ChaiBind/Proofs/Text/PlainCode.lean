import ChaiBind.Proofs.Text.Parts
import ChaiBind.Proofs.Text.Positions

/-!
# Code without literals and comments

In a text that opens neither a literal nor a comment every character is code, so that a scan that
comes to it in code goes on in code behind it (`stripFrom_append_plain`). A single quote opens no
literal where it separates digits (`OpensNoLiteral`).
-/

namespace ChaiBind.Text

/-- No character of a text opens a literal; `afterWord` says that an ASCII letter or digit comes
right before the text. -/
def OpensNoLiteral (afterWord : Bool) : List Char → Prop
  | [] => True
  | c :: cs => Scan.opensLiteral afterWord c = false ∧ OpensNoLiteral c.isAlphanum cs

instance decidableOpensNoLiteral : (afterWord : Bool) → DecidablePred (OpensNoLiteral afterWord)
  | _, [] => isTrue trivial
  | afterWord, c :: cs =>
    have := decidableOpensNoLiteral c.isAlphanum cs
    inferInstanceAs (Decidable (Scan.opensLiteral afterWord c = false ∧ OpensNoLiteral c.isAlphanum cs))

theorem opensLiteral_eq_false {c : Char} (hc : c ≠ '"' ∧ c ≠ '\'') (afterWord : Bool) :
    Scan.opensLiteral afterWord c = false := by
  simp [Scan.opensLiteral, hc]

theorem opensNoLiteral_of_notMem {cs : List Char} (h : '"' ∉ cs ∧ '\'' ∉ cs) (afterWord : Bool) :
    OpensNoLiteral afterWord cs := by
  induction cs generalizing afterWord with
  | nil => trivial
  | cons c cs ih =>
    simp only [List.mem_cons, not_or] at h
    exact ⟨opensLiteral_eq_false ⟨Ne.symm h.1.1, Ne.symm h.2.1⟩ afterWord, ih ⟨h.1.2, h.2.2⟩ _⟩

/-- What opens no literal does not open one behind a letter or digit either. -/
theorem OpensNoLiteral.of_false {cs : List Char} (h : OpensNoLiteral false cs) (afterWord : Bool) :
    OpensNoLiteral afterWord cs := by
  cases cs with
  | nil => trivial
  | cons c cs =>
    refine ⟨?_, h.2⟩
    have hc := h.1
    simp only [Scan.opensLiteral, Bool.or_eq_false_iff, Bool.not_false, Bool.and_true] at hc ⊢
    exact ⟨hc.1, by rw [hc.2, Bool.false_and]⟩

theorem OpensNoLiteral.append {u v : List Char} {afterWord : Bool} (hu : OpensNoLiteral afterWord u)
    (hv : OpensNoLiteral false v) : OpensNoLiteral afterWord (u ++ v) := by
  induction u generalizing afterWord with
  | nil => exact hv.of_false afterWord
  | cons c u ih => exact ⟨hu.1, ih hu.2⟩

/-- A text that opens neither a literal nor a comment. -/
structure IsPlainCode (afterWord : Bool) (cs : List Char) : Prop where
  literals : OpensNoLiteral afterWord cs
  comments : ¬ ['/', '/'] <:+: cs ∧ ¬ ['/', '*'] <:+: cs

theorem isPlainCode_of_notMem {cs : List Char} (hquotes : '"' ∉ cs ∧ '\'' ∉ cs) (hslash : '/' ∉ cs)
    (afterWord : Bool) : IsPlainCode afterWord cs where
  literals := opensNoLiteral_of_notMem hquotes afterWord
  comments := ⟨fun hi => hslash (hi.subset List.mem_cons_self),
    fun hi => hslash (hi.subset List.mem_cons_self)⟩

theorem isPlainCode_of_blank {blanks : List Char} (h : ∀ c ∈ blanks, isBlank c)
    (afterWord : Bool) : IsPlainCode afterWord blanks :=
  isPlainCode_of_notMem ⟨notMem_of_blanks h (by decide), notMem_of_blanks h (by decide)⟩
    (notMem_of_blanks h (by decide)) afterWord

/-- A character that opens nothing is code. -/
theorem Scan.step_code {c : Char} {next : Option Char} {afterWord : Bool}
    (hliteral : Scan.opensLiteral afterWord c = false) (hslash : c = '/' → ¬ Scan.Opens next) :
    (Scan.code afterWord).step c next = (.code, .code c.isAlphanum) := by
  by_cases hc : c = '/'
  · obtain ⟨hline, hblock⟩ := not_or.1 (hslash hc)
    simp [Scan.step, Scan.stepCode, hliteral, hline, hblock]
  · simp [Scan.step, Scan.stepCode, hliteral, hc]

/-- Plain code is kept, with code behind it, unless a slash at its end and what follows open a
comment. -/
theorem after_plain {u : List Char} {afterWord : Bool} {next : Option Char}
    (h : IsPlainCode afterWord u) (hnext : u.getLast? = some '/' → ¬ Scan.Opens next) :
    (∃ afterWord', (Scan.code afterWord).after u next = .code afterWord') ∧
      stripPart (.code afterWord) u next = u := by
  induction u generalizing afterWord with
  | nil => exact ⟨⟨afterWord, rfl⟩, rfl⟩
  | cons c u ih =>
    have hopens : c = '/' → ¬ Scan.Opens (u.head?.or next) := by
      rintro rfl
      cases u with
      | nil => exact hnext rfl
      | cons d u =>
        rintro (hd | hd)
        · obtain rfl := Option.some.inj hd
          exact h.comments.1 (List.prefix_append ['/', '/'] u).isInfix
        · obtain rfl := Option.some.inj hd
          exact h.comments.2 (List.prefix_append ['/', '*'] u).isInfix
    have htail : IsPlainCode c.isAlphanum u :=
      ⟨h.literals.2, fun hi => h.comments.1 (hi.trans (List.suffix_cons c u).isInfix),
        fun hi => h.comments.2 (hi.trans (List.suffix_cons c u).isInfix)⟩
    have hlast : u.getLast? = some '/' → ¬ Scan.Opens next := by
      cases u with
      | nil => nofun
      | cons d u =>
        rwa [List.getLast?_cons_cons] at hnext
    have hkept : survives (Layer.code, c) := rfl
    obtain ⟨hafter, hstrip⟩ := ih htail hlast
    rw [Scan.after_cons, stripPart_cons, Scan.step_code h.literals.1 hopens, if_pos hkept, hstrip]
    exact ⟨hafter, rfl⟩

/-- The scan goes on in code behind plain code, unless a slash at its end and what follows open a
comment. -/
theorem stripFrom_append_plain {u v : List Char} {afterWord : Bool} (h : IsPlainCode afterWord u)
    (hnext : u.getLast? = some '/' → ¬ Scan.Opens v.head?) :
    ∃ afterWord', stripFrom (.code afterWord) (u ++ v) = u ++ stripFrom (.code afterWord') v := by
  obtain ⟨⟨afterWord', hafter⟩, hstrip⟩ := after_plain h hnext
  exact ⟨afterWord', by rw [stripFrom_append, hstrip, hafter]⟩

end ChaiBind.Text
