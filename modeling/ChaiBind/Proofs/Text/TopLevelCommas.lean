import ChaiBind.Proofs.Text.Literals
import ChaiBind.Proofs.Text.Pieces
import ChaiBind.Proofs.Text.PlainCode

/-!
# Commas at top level

Cutting a text at its commas counts angles as brackets, also where they are operators. In a list of
pieces whose parentheses are balanced, and which have commas only inside parentheses, the commas
between the pieces are therefore the ones that are cut at if and only if the angles in front of each
comma do not change whether it counts as enclosed (`splitTopLevelFrom_intercalate_iff`).

* `splitTopLevelFrom_append_iff`: what comes of a piece, by the characters of the piece.
* `splitTopLevel_closing`: a comma behind the last piece.
-/

namespace ChaiBind.Text

/-- What a character adds to the open parentheses. -/
def parenStep (c : Char) : Int := if c = '(' then 1 else if c = ')' then -1 else 0

/-- What a character adds to the angles that count as open, and may be below zero. -/
def angleStep (c : Char) : Int := if c = '<' then 1 else if c = '>' then -1 else 0

/-- The parentheses of a text are balanced, and its commas stand inside parentheses, where some are
open in front of it. -/
def Encloses (parens : Int) : List Char → Prop
  | [] => parens = 0
  | c :: cs => 0 ≤ parens ∧ (c = ',' → 0 < parens) ∧ Encloses (parens + parenStep c) cs

instance decidableEncloses : (parens : Int) → DecidablePred (Encloses parens)
  | parens, [] => inferInstanceAs (Decidable (parens = 0))
  | parens, c :: cs =>
    have := decidableEncloses (parens + parenStep c) cs
    inferInstanceAs (Decidable (0 ≤ parens ∧ (c = ',' → 0 < parens) ∧
      Encloses (parens + parenStep c) cs))

/-- At each comma of a text, brackets count as open if and only if a parenthesis is open there. -/
def KeepsCommas (parens angles : Int) : List Char → Prop
  | [] => True
  | c :: cs => (c = ',' → (0 < parens + angles ↔ 0 < parens)) ∧
      KeepsCommas (parens + parenStep c) (angles + angleStep c) cs

instance decidableKeepsCommas : (parens angles : Int) → DecidablePred (KeepsCommas parens angles)
  | _, _, [] => isTrue trivial
  | parens, angles, c :: cs =>
    have := decidableKeepsCommas (parens + parenStep c) (angles + angleStep c) cs
    inferInstanceAs (Decidable ((c = ',' → (0 < parens + angles ↔ 0 < parens)) ∧
      KeepsCommas (parens + parenStep c) (angles + angleStep c) cs))

/-- What the characters of a text add up to. -/
def total (step : Char → Int) : List Char → Int
  | [] => 0
  | c :: cs => step c + total step cs

theorem total_append (step : Char → Int) (u v : List Char) :
    total step (u ++ v) = total step u + total step v := by
  induction u with
  | nil => exact (Int.zero_add _).symm
  | cons c u ih => rw [List.cons_append, total, total, ih, Int.add_assoc]

theorem keepsCommas_append (u v : List Char) (parens angles : Int) :
    KeepsCommas parens angles (u ++ v) ↔
      KeepsCommas parens angles u ∧
        KeepsCommas (parens + total parenStep u) (angles + total angleStep u) v := by
  induction u generalizing parens angles with
  | nil => simp [KeepsCommas, total]
  | cons c u ih =>
    rw [List.cons_append, KeepsCommas, KeepsCommas, ih, total, total, Int.add_assoc,
      Int.add_assoc, and_assoc]

theorem keepsCommas_of_notMem {cs : List Char} (h : ',' ∉ cs) (parens angles : Int) :
    KeepsCommas parens angles cs := by
  induction cs generalizing parens angles with
  | nil => trivial
  | cons c cs ih =>
    rw [List.mem_cons, not_or] at h
    exact ⟨fun hc => absurd hc.symm h.1, ih h.2 _ _⟩

theorem total_angleStep_eq_zero {cs : List Char} (h : ∀ c ∈ cs, c ≠ '<' ∧ c ≠ '>') :
    total angleStep cs = 0 := by
  induction cs with
  | nil => rfl
  | cons c cs ih =>
    obtain ⟨⟨hopen, hclose⟩, hcs⟩ := List.forall_mem_cons.1 h
    rw [total, ih hcs, angleStep, if_neg hopen, if_neg hclose]
    rfl

/-- A text without angles keeps its commas. -/
theorem keepsCommas_of_forall {cs : List Char} (h : ∀ c ∈ cs, c ≠ '<' ∧ c ≠ '>') (parens : Int) :
    KeepsCommas parens 0 cs := by
  induction cs generalizing parens with
  | nil => trivial
  | cons c cs ih =>
    obtain ⟨⟨hopen, hclose⟩, hcs⟩ := List.forall_mem_cons.1 h
    have hstep : angleStep c = 0 := by rw [angleStep, if_neg hopen, if_neg hclose]
    rw [KeepsCommas, hstep, Int.add_zero]
    exact ⟨fun _ => Iff.rfl, ih hcs _⟩

/-- Where no parenthesis is open, a comma is kept if no more angles are opened than closed. -/
theorem keepsCommas_comma_cons (angles : Int) (v : List Char) :
    KeepsCommas 0 angles (',' :: v) ↔ angles ≤ 0 ∧ KeepsCommas 0 angles v := by
  simp [KeepsCommas, parenStep, angleStep]

theorem Encloses.total_eq {cs : List Char} {parens : Int} (h : Encloses parens cs) :
    parens + total parenStep cs = 0 := by
  induction cs generalizing parens with
  | nil =>
    obtain rfl : parens = 0 := h
    rfl
  | cons c cs ih =>
    rw [total, ← Int.add_assoc]
    exact ih h.2.2

/-- A text without parentheses and commas encloses nothing. -/
theorem encloses_append {u : List Char} (hu : ∀ c ∈ u, c ≠ '(' ∧ c ≠ ')' ∧ c ≠ ',') {parens : Int}
    (hparens : 0 ≤ parens) (v : List Char) : Encloses parens (u ++ v) ↔ Encloses parens v := by
  induction u with
  | nil => rfl
  | cons c u ih =>
    obtain ⟨⟨hopen, hclose, hcomma⟩, hu⟩ := List.forall_mem_cons.1 hu
    have hstep : parens + parenStep c = parens := by simp [parenStep, hopen, hclose]
    rw [List.cons_append, Encloses, hstep, ih hu]
    simp [hparens, hcomma]

/-! ## Cutting at commas -/

/-- A bracket or a brace, which no initializer of an enumerator has. -/
def isSquareOrCurly (c : Char) : Bool := c = '[' || c = ']' || c = '{' || c = '}'

/-- In code, a character is cut at if it is a comma outside brackets. -/
theorem Nesting.step_comma {c : Char} {afterWord : Bool}
    (hliteral : Scan.opensLiteral afterWord c = false) (hsquare : isSquareOrCurly c = false)
    (depth : Int) :
    (Nesting.code depth afterWord).step ',' c =
      (c = ',' && depth ≤ 0, .code (depth + parenStep c + angleStep c) c.isAlphanum) := by
  simp only [isSquareOrCurly, Bool.or_eq_false_iff, decide_eq_false_iff_not] at hsquare
  obtain ⟨⟨⟨hopen, hclose⟩, hbrace⟩, hunbrace⟩ := hsquare
  rw [Scan.opensLiteral] at hliteral
  by_cases hparen : c = '('
  · subst hparen
    simp [Nesting.step, isOpening, parenStep, angleStep]
  by_cases hunparen : c = ')'
  · subst hunparen
    simp [Nesting.step, isOpening, isClosing, parenStep, angleStep, Int.sub_eq_add_neg]
  by_cases hangle : c = '<'
  · subst hangle
    simp [Nesting.step, isOpening, parenStep, angleStep]
  by_cases hunangle : c = '>'
  · subst hunangle
    simp [Nesting.step, isOpening, isClosing, parenStep, angleStep, Int.sub_eq_add_neg]
  · simp [Nesting.step, isOpening, isClosing, parenStep, angleStep, hliteral, hopen, hclose, hbrace,
      hunbrace, hparen, hunparen, hangle, hunangle]

theorem consHead_eq_iff {c : Char} {p : List Char} {ps qs : List (List Char)} (hne : ps ≠ []) :
    consHead c ps = (c :: p) :: qs ↔ ps = p :: qs := by
  obtain ⟨p', ps', rfl⟩ := List.exists_cons_of_ne_nil hne
  simp [consHead]

/-- A text is the first piece of itself and what follows if and only if it keeps its commas and what
follows starts with a piece that is empty. -/
theorem splitTopLevelFrom_append_iff {cs : List Char} {parens : Int} {afterWord : Bool}
    (hliteral : OpensNoLiteral afterWord cs) (hsquare : ∀ c ∈ cs, isSquareOrCurly c = false)
    (hencloses : Encloses parens cs) (angles : Int) (v : List Char) :
    ∃ afterWord', ∀ qs,
      splitTopLevelFrom ',' (.code (parens + angles) afterWord) (cs ++ v) = cs :: qs ↔
        KeepsCommas parens angles cs ∧
          splitTopLevelFrom ',' (.code (angles + total angleStep cs) afterWord') v = [] :: qs := by
  induction cs generalizing parens angles afterWord with
  | nil =>
    obtain rfl : parens = 0 := hencloses
    exact ⟨afterWord, fun qs => by simp [KeepsCommas, total]⟩
  | cons c cs ih =>
    obtain ⟨hc, hcs⟩ := List.forall_mem_cons.1 hsquare
    obtain ⟨-, hcomma, hrest⟩ := hencloses
    obtain ⟨afterWord', hiff⟩ := ih hliteral.2 hcs hrest (angles + angleStep c)
    refine ⟨afterWord', fun qs => ?_⟩
    have hdepth : parens + angles + parenStep c + angleStep c =
        parens + parenStep c + (angles + angleStep c) := by omega
    have hsum : angles + total angleStep (c :: cs) = angles + angleStep c + total angleStep cs := by
      rw [total, Int.add_assoc]
    have hne := splitTopLevelFrom_ne_nil ','
      (.code (parens + parenStep c + (angles + angleStep c)) c.isAlphanum) (cs ++ v)
    rw [List.cons_append, splitTopLevelFrom_cons, Nesting.step_comma hliteral.1 hc, hdepth, KeepsCommas,
      hsum, and_assoc, ← hiff qs, ← consHead_eq_iff hne]
    by_cases hcut : c = ',' ∧ parens + angles ≤ 0
    · -- A comma inside parentheses at which the text is cut is not kept.
      have hopen := hcomma hcut.1
      rw [if_pos (by simpa using hcut)]
      refine iff_of_false (by simp) fun hkeeps => ?_
      have hbrackets := (hkeeps.1 hcut.1).2 hopen
      omega
    · rw [if_neg (by simpa using hcut)]
      refine ⟨fun h => ⟨fun hc => ?_, h⟩, And.right⟩
      have hopen := hcomma hc
      have hbrackets : 0 < parens + angles := by
        by_contra hle
        exact hcut ⟨hc, Int.not_lt.1 hle⟩
      exact iff_of_true hbrackets hopen

/-- A text that may stand between commas. -/
structure IsPiece (cs : List Char) : Prop where
  literals : OpensNoLiteral false cs
  square : ∀ c ∈ cs, isSquareOrCurly c = false
  encloses : Encloses 0 cs

/-- Pieces between commas are told apart if and only if they keep their commas. -/
theorem splitTopLevelFrom_intercalate_iff {ps : List (List Char)} (hne : ps ≠ [])
    (h : ∀ p ∈ ps, IsPiece p) (angles : Int) (afterWord : Bool) :
    splitTopLevelFrom ',' (.code angles afterWord) ([','].intercalate ps) = ps ↔
      KeepsCommas 0 angles ([','].intercalate ps) := by
  induction ps generalizing angles afterWord with
  | nil => exact absurd rfl hne
  | cons p ps ih =>
    obtain ⟨hp, hps⟩ := List.forall_mem_cons.1 h
    have hpiece := splitTopLevelFrom_append_iff (hp.literals.of_false afterWord) hp.square hp.encloses
      angles
    rw [Int.zero_add] at hpiece
    cases ps with
    | nil =>
      obtain ⟨afterWord', hiff⟩ := hpiece []
      rw [List.append_nil] at hiff
      rw [List.intercalate_singleton, hiff]
      simp [splitTopLevelFrom]
    | cons q qs =>
      obtain ⟨afterWord', hiff⟩ := hpiece (',' :: [','].intercalate (q :: qs))
      have hopens : Scan.opensLiteral afterWord' ',' = false :=
        opensLiteral_eq_false ⟨by decide, by decide⟩ afterWord'
      have hcut : (Nesting.code (angles + total angleStep p) afterWord').step ',' ',' =
          (decide (angles + total angleStep p ≤ 0), .code (angles + total angleStep p) false) := by
        rw [Nesting.step_comma hopens rfl]
        simp [parenStep, angleStep]
      have hclosed : 0 + total parenStep p = 0 := hp.encloses.total_eq
      rw [intercalate_cons_char, hiff, keepsCommas_append, hclosed, keepsCommas_comma_cons,
        splitTopLevelFrom_cons, hcut,
        ← ih (List.cons_ne_nil q qs) hps (angles + total angleStep p) false]
      refine and_congr_right fun _ => ?_
      by_cases hle : angles + total angleStep p ≤ 0
      · rw [if_pos (decide_eq_true hle)]
        simp [hle]
      · rw [if_neg (by simpa using hle)]
        refine iff_of_false (fun hpieces => ?_) fun h => hle h.1
        have hne := splitTopLevelFrom_ne_nil ',' (.code (angles + total angleStep p) false)
          ([','].intercalate (q :: qs))
        obtain ⟨r, rs, hrs⟩ := List.exists_cons_of_ne_nil hne
        rw [hrs] at hpieces
        cases hpieces

/-! ## A comma at the end -/

theorem total_parenStep_intercalate {ps : List (List Char)} (h : ∀ p ∈ ps, Encloses 0 p) :
    total parenStep ([','].intercalate ps) = 0 := by
  induction ps with
  | nil => rfl
  | cons p ps ih =>
    obtain ⟨hp, hps⟩ := List.forall_mem_cons.1 h
    have hclosed : total parenStep p = 0 := by
      rw [← Int.zero_add (total parenStep p)]
      exact hp.total_eq
    cases ps with
    | nil => rwa [List.intercalate_singleton]
    | cons q qs =>
      have hcomma : parenStep ',' = 0 := rfl
      rw [intercalate_cons_char, total_append, total, hclosed, hcomma, ih hps]
      rfl

/-- Where the commas are kept, only the last piece leaves angles open. -/
theorem total_angleStep_intercalate_le {ps : List (List Char)} {last : List Char}
    (h : ∀ p ∈ ps, Encloses 0 p) (hkeeps : KeepsCommas 0 0 ([','].intercalate (ps ++ [last]))) :
    total angleStep ([','].intercalate (ps ++ [last])) ≤ total angleStep last := by
  by_cases hne : ps = []
  · subst hne
    have hone : [','].intercalate ([] ++ [last]) = last := List.intercalate_singleton
    exact Int.le_of_eq (congrArg (total angleStep) hone)
  · have hjoin : [','].intercalate (ps ++ [last]) = [','].intercalate ps ++ ',' :: last := by
      rw [intercalate_append hne (List.cons_ne_nil last []), List.intercalate_singleton,
        List.append_assoc, List.singleton_append]
    rw [hjoin, keepsCommas_append, total_parenStep_intercalate h, Int.zero_add, Int.zero_add,
      keepsCommas_comma_cons] at hkeeps
    have hcomma : angleStep ',' = 0 := rfl
    rw [hjoin, total_append, total, hcomma]
    omega

/-- A text is cut at the separator only. -/
theorem Nesting.fst_step_eq_false {sep c : Char} (h : c ≠ sep) (s : Nesting) :
    (s.step sep c).1 = false := by
  cases s with
  | code depth afterWord =>
    rw [Nesting.step]
    split_ifs <;> simp [h]
  | literal depth quote =>
    rw [Nesting.step]
    split_ifs <;> rfl
  | escape depth quote => rfl

theorem splitTopLevelFrom_of_notMem {sep : Char} {v : List Char} (h : sep ∉ v) (s : Nesting) :
    splitTopLevelFrom sep s v = [v] := by
  induction v generalizing s with
  | nil => rfl
  | cons c v ih =>
    rw [List.mem_cons, not_or] at h
    exact splitTopLevelFrom_cons_of_not_cut (Nesting.fst_step_eq_false (Ne.symm h.1) s) (ih h.2 _)

theorem joinPieces_concat (ps : List (List Char)) (p q : List Char) (qs : List (List Char)) :
    joinPieces (ps ++ [p]) (q :: qs) = ps ++ (p ++ q) :: qs := by
  induction ps with
  | nil => rfl
  | cons p' ps ih =>
    rw [List.cons_append, joinPieces_cons p' (List.concat_ne_nil p ps), ih, List.cons_append]

/-- A comma behind the last piece is cut at, or it goes with the last piece, which leaves angles
open. -/
theorem splitTopLevel_closing {ps : List (List Char)} {last closing : List Char}
    (h : ∀ p ∈ ps ++ [last], IsPiece p) (hclosing : IsPiece closing) (hcomma : ',' ∉ closing)
    (hkeeps : KeepsCommas 0 0 ([','].intercalate (ps ++ [last]))) :
    splitTopLevel ',' ([','].intercalate (ps ++ [last, closing])) = ps ++ [last, closing] ∨
      0 < total angleStep last ∧ splitTopLevel ',' ([','].intercalate (ps ++ [last, closing])) =
        ps ++ [last ++ ',' :: closing] := by
  have hne : ps ++ [last] ≠ [] := List.concat_ne_nil last ps
  have hassoc : ps ++ [last, closing] = (ps ++ [last]) ++ [closing] := by
    rw [List.append_assoc, List.singleton_append]
  have hjoin : [','].intercalate (ps ++ [last, closing]) =
      [','].intercalate (ps ++ [last]) ++ ',' :: closing := by
    rw [hassoc, intercalate_append hne (List.cons_ne_nil closing []), List.intercalate_singleton,
      List.append_assoc, List.singleton_append]
  have hencloses : ∀ p ∈ ps ++ [last], Encloses 0 p := fun p hp => (h p hp).encloses
  by_cases hangles : total angleStep ([','].intercalate (ps ++ [last])) ≤ 0
  · -- The comma is kept too.
    have hpieces : ∀ p ∈ ps ++ [last, closing], IsPiece p := by
      rw [hassoc, List.forall_mem_append, List.forall_mem_singleton]
      exact ⟨h, hclosing⟩
    have hall : KeepsCommas 0 0 ([','].intercalate (ps ++ [last, closing])) := by
      rw [hjoin, keepsCommas_append, total_parenStep_intercalate hencloses, Int.zero_add, Int.zero_add,
        keepsCommas_comma_cons]
      exact ⟨hkeeps, hangles, keepsCommas_of_notMem hcomma _ _⟩
    have hnil : ps ++ [last, closing] ≠ [] := by simp
    exact .inl ((splitTopLevelFrom_intercalate_iff hnil hpieces 0 false).2 hall)
  · have hlast := total_angleStep_intercalate_le
      (fun p hp => hencloses p (List.mem_append_left _ hp)) hkeeps
    have hcut : splitTopLevel ',' ([','].intercalate (ps ++ [last])) = ps ++ [last] :=
      (splitTopLevelFrom_intercalate_iff hne h 0 false).2 hkeeps
    rw [hjoin, splitTopLevel, splitTopLevelFrom_append, ← splitTopLevel, hcut, splitTopLevelFrom_cons,
      splitTopLevelFrom_of_notMem hcomma]
    split
    · left
      rw [joinPieces_concat, List.append_nil]
    · right
      refine ⟨by omega, ?_⟩
      rw [consHead, joinPieces_concat]

end ChaiBind.Text
