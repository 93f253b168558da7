import ChaiBind.Proofs.Text.LineBreaks
import ChaiBind.Proofs.Text.Literals
import ChaiBind.Proofs.Text.Pieces

/-!
# Names in plain text

Names with separators between them are the pieces of the text they make, and in a text of
nothing but names, spaces and commas there is nothing for a scanner to get lost in: it has
no comments (`stripComments_plain`), and it is cut at every comma
(`splitTopLevel_plain`).

* `words_spaced`: names with a space in front of each are the words of their text.
* `containsWord_append`, `containsWord_name`: a word in whole lines and in a name.
-/

namespace ChaiBind.Text

/-! ## Names with spaces between them -/

/-- Texts with a space in front of each. -/
def spaced (ws : List (List Char)) : List Char := ws.flatMap (' ' :: ·)

theorem pieces_spaced {ws : List (List Char)} (h : ∀ w ∈ ws, ∀ c ∈ w, isBlank c = false) :
    pieces isBlank (spaced ws) = [] :: ws := by
  induction ws with
  | nil => rfl
  | cons w ws ih =>
    obtain ⟨hw, hws⟩ := List.forall_mem_cons.1 h
    have hspace : isBlank ' ' = true := by decide
    show pieces isBlank (' ' :: (w ++ spaced ws)) = _
    rw [pieces, if_pos hspace, pieces_append hw, ih hws]
    simp

theorem words_spaced {ws : List (List Char)} (h : ∀ w ∈ ws, w ≠ [] ∧ ∀ c ∈ w, isBlank c = false) :
    words (spaced ws) = ws := by
  rw [words, pieces_spaced fun w hw => (h w hw).2, List.filter_cons_of_neg (by simp),
    List.filter_eq_self]
  exact fun w hw => decide_eq_true (h w hw).1

/-! ## Plain text -/

/-- The characters of names, and what stands between names in a list. -/
def isPlain (c : Char) : Bool := isWord c || c = ' ' || c = ','

theorem ne_of_isPlain {c d : Char} (hc : isPlain c) (hd : isPlain d = false) : c ≠ d := by
  rintro rfl
  rw [hc] at hd
  cases hd

theorem stripFrom_plain {cs : List Char} (h : ∀ c ∈ cs, isPlain c) (afterWord : Bool) :
    stripFrom (.code afterWord) cs = cs := by
  induction cs generalizing afterWord with
  | nil => rfl
  | cons c cs ih =>
    obtain ⟨hc, hcs⟩ := List.forall_mem_cons.1 h
    have hquote : c ≠ '"' := ne_of_isPlain hc (by decide)
    have hsingle : c ≠ '\'' := ne_of_isPlain hc (by decide)
    have hslash : c ≠ '/' := ne_of_isPlain hc (by decide)
    have hstep : Scan.step (.code afterWord) c cs.head? = (.code, .code c.isAlphanum) := by
      simp [Scan.step, Scan.stepCode, Scan.opensLiteral, hquote, hsingle, hslash]
    rw [stripFrom_cons, hstep, if_pos (by rfl), ih hcs]

theorem stripComments_plain {cs : List Char} (h : ∀ c ∈ cs, isPlain c) : stripComments cs = cs :=
  stripFrom_plain h false

theorem splitTopLevelFrom_plain {cs : List Char} (h : ∀ c ∈ cs, isPlain c) (sep : Char)
    (afterWord : Bool) :
    splitTopLevelFrom sep (.code 0 afterWord) cs = pieces (· = sep) cs := by
  induction cs generalizing afterWord with
  | nil => rfl
  | cons c cs ih =>
    obtain ⟨hc, hcs⟩ := List.forall_mem_cons.1 h
    have hquote : c ≠ '"' := ne_of_isPlain hc (by decide)
    have hsingle : c ≠ '\'' := ne_of_isPlain hc (by decide)
    have hopening : isOpening c = false := by
      simp [isOpening, ne_of_isPlain hc (d := '<') (by decide), ne_of_isPlain hc (d := '(') (by decide),
        ne_of_isPlain hc (d := '[') (by decide), ne_of_isPlain hc (d := '{') (by decide)]
    have hclosing : isClosing c = false := by
      simp [isClosing, ne_of_isPlain hc (d := '>') (by decide), ne_of_isPlain hc (d := ')') (by decide),
        ne_of_isPlain hc (d := ']') (by decide), ne_of_isPlain hc (d := '}') (by decide)]
    have hstep : Nesting.step sep (.code 0 afterWord) c =
        (decide (c = sep), .code 0 c.isAlphanum) := by
      simp [Nesting.step, hquote, hsingle, hopening, hclosing]
    rw [splitTopLevelFrom_cons, hstep, ih hcs, pieces]

theorem splitTopLevel_plain {cs : List Char} (h : ∀ c ∈ cs, isPlain c) (sep : Char) :
    splitTopLevel sep cs = pieces (· = sep) cs :=
  splitTopLevelFrom_plain h sep false

theorem beforeAssignment_plain {cs : List Char} (h : ∀ c ∈ cs, isPlain c) :
    beforeAssignment cs = cs := by
  have hsep : ∀ c ∈ cs, decide (c = '=') = false := fun c hc =>
    decide_eq_false (ne_of_isPlain (h c hc) (by decide))
  rw [beforeAssignment, splitTopLevel_plain h, pieces_of_forall hsep]
  rfl

/-! ## Words -/

theorem EndsLine.append {u v : List Char} (hu : EndsLine u) (hv : EndsLine v) :
    EndsLine (u ++ v) := by
  rcases hv.eq_nil_or with rfl | ⟨v, rfl⟩
  · rwa [List.append_nil]
  · rw [← List.append_assoc]
    exact endsLine_append_newline _

section

variable {w : List Char} (hw : IsIdentifier w)
include hw

theorem containsWord_nil : containsWord w [] = false := by
  cases w with
  | nil => cases hw
  | cons c cs => rfl

/-- A word is found in whole lines or behind them. -/
theorem containsWord_append {u : List Char} (hu : EndsLine u) (v : List Char) :
    containsWord w (u ++ v) = (containsWord w u || containsWord w v) := by
  have hnewline : '\n' ∉ w := notMem_of_isWord (fun _ => hw.isWord_of_mem) (by decide)
  have hword : isWord '\n' = false := by decide
  rcases hu.eq_nil_or with rfl | ⟨u, rfl⟩
  · rw [containsWord_nil hw, List.nil_append, Bool.false_or]
  · rw [List.append_assoc, List.singleton_append, containsWord_append_cons hnewline hword,
      containsWord_append_cons hnewline hword u [], containsWord_nil hw, Bool.or_false]

omit hw in
/-- A name contains no word but itself. -/
theorem containsWord_name {name : List Char} (hname : IsIdentifier name) (hne : name ≠ w) :
    containsWord w name = false := by
  have hinside : ∀ cs : List Char, (∀ c ∈ cs, isWord c) → ∀ d, isWord d →
      countFrom (wordAt w) (some d) cs = 0 := by
    intro cs
    induction cs with
    | nil =>
      intro _ d hd
      rw [countFrom, wordAt, Option.any_some, hd]
      rfl
    | cons c cs ih =>
      intro hcs d hd
      obtain ⟨hc, hcs⟩ := List.forall_mem_cons.1 hcs
      rw [countFrom, wordAt, Option.any_some, hd, ih hcs c hc]
      rfl
  have hstart : startsWithWord w name = false := by
    rw [← Bool.not_eq_true, startsWithWord_iff]
    rintro ⟨rest, rfl, hrest⟩
    cases rest with
    | nil => exact hne (List.append_nil w)
    | cons c rest =>
      have hc := hname.isWord_of_mem (List.mem_append_right w List.mem_cons_self)
      rw [List.head?_cons, Option.any_some, hc] at hrest
      cases hrest
  cases name with
  | nil => cases hname
  | cons c cs =>
    have hc := hname.isWord_of_mem List.mem_cons_self
    have hcs : ∀ d ∈ cs, isWord d := fun d hd => hname.isWord_of_mem (List.mem_cons_of_mem c hd)
    rw [containsWord_eq, countFrom, wordAt, hstart, hinside cs hcs c hc]
    rfl

end

end ChaiBind.Text
