import ChaiBind.Proofs.Text.TopLevelCommas

/-!
# Brackets at top level

A text is cut at a separator outside literals if it has opened no more brackets in front of it than
it has closed, angles and the other three kinds counted together (`isCutAt_iff`). Inside a pair of
parentheses, square brackets or braces at least the bracket of the pair is open, so that nothing is
cut there unless other brackets make up for it: closing ones without a match in front of the pair,
or more `>` than `<`, as operators have it (`isCutAt_inside_iff`).

* `intercalate_splitTopLevelFrom`: the pieces of a text and the separators between them make it up.
* `depth_after`: the depth counts the brackets outside literals.
* `Balanced.total_nonneg`: matched brackets close none that they have not opened.
-/

namespace ChaiBind.Text

/-! ## Where a text is cut -/

/-- A text is cut at the separator between `u` and `v`: the pieces up to there make up `u`, and the
ones behind it `v`. -/
def IsCutAt (sep : Char) (u v : List Char) : Prop :=
  ∃ ps qs, ps ≠ [] ∧ qs ≠ [] ∧ splitTopLevel sep (u ++ sep :: v) = ps ++ qs ∧
    [sep].intercalate ps = u ∧ [sep].intercalate qs = v

theorem intercalate_nil_cons (sep : Char) {ps : List (List Char)} (hps : ps ≠ []) :
    [sep].intercalate ([] :: ps) = sep :: [sep].intercalate ps := by
  obtain ⟨p, ps, rfl⟩ := List.exists_cons_of_ne_nil hps
  exact intercalate_cons_char sep [] p ps

/-- Nothing is lost in cutting. -/
theorem intercalate_splitTopLevelFrom (sep : Char) (s : Nesting) (cs : List Char) :
    [sep].intercalate (splitTopLevelFrom sep s cs) = cs := by
  induction cs generalizing s with
  | nil => rfl
  | cons c cs ih =>
    have hne := splitTopLevelFrom_ne_nil sep (s.step sep c).2 cs
    rw [splitTopLevelFrom_cons]
    split
    · rename_i hcut
      have hc : c = sep := by
        by_contra hc
        rw [Nesting.fst_step_eq_false hc s] at hcut
        cases hcut
      rw [intercalate_nil_cons sep hne, ih, hc]
    · rw [intercalate_consHead [sep] c hne, ih]

theorem joinPieces_nil_cons {ps : List (List Char)} (hps : ps ≠ []) (qs : List (List Char)) :
    joinPieces ps ([] :: qs) = ps ++ qs := by
  rcases List.eq_nil_or_concat ps with rfl | ⟨ps, p, rfl⟩
  · exact absurd rfl hps
  · rw [List.concat_eq_append, joinPieces_concat, List.append_nil, List.append_assoc,
      List.singleton_append]

/-- A joined text starts with its first piece. -/
theorem prefix_intercalate_cons (sep : Char) (p : List Char) (ps : List (List Char)) :
    p <+: [sep].intercalate (p :: ps) := by
  cases ps with
  | nil => exact List.intercalate_singleton ▸ List.prefix_refl _
  | cons q ps =>
    rw [intercalate_cons_char]
    exact List.prefix_append _ _

/-- A text is cut at a separator where its pieces part there. -/
theorem step_eq_true_of_pieces {sep : Char} {s : Nesting} {u v : List Char}
    {ps qs : List (List Char)} (hps : ps ≠ [])
    (hpieces : splitTopLevelFrom sep s (u ++ sep :: v) = ps ++ qs) (hu : [sep].intercalate ps = u) :
    ((s.after sep u).step sep sep).1 = true := by
  obtain ⟨p, ps, rfl⟩ := List.exists_cons_of_ne_nil hps
  induction u generalizing s p ps with
  | nil =>
    -- a separator that is kept starts the first piece, which has nothing in front of the cut
    by_contra hkept
    have hstays : ¬ (s.step sep sep).1 = true := hkept
    obtain ⟨r, rs, hrs⟩ :=
      List.exists_cons_of_ne_nil (splitTopLevelFrom_ne_nil sep (s.step sep sep).2 v)
    rw [List.nil_append, splitTopLevelFrom_cons, if_neg hstays, hrs] at hpieces
    obtain ⟨rfl, -⟩ := List.cons.inj hpieces
    have hprefix := prefix_intercalate_cons sep (sep :: r) ps
    rw [hu] at hprefix
    exact List.cons_ne_nil sep r (List.prefix_nil.1 hprefix)
  | cons c u ih =>
    have hafter : s.after sep (c :: u) = (s.step sep c).2.after sep u := rfl
    rw [List.cons_append, splitTopLevelFrom_cons] at hpieces
    rw [hafter]
    split at hpieces
    · obtain ⟨rfl, hrest⟩ := List.cons.inj hpieces
      cases ps with
      | nil => cases hu
      | cons q ps =>
        rw [intercalate_nil_cons sep (List.cons_ne_nil q ps)] at hu
        exact ih q ps (List.cons_ne_nil q ps) hrest (List.cons.inj hu).2
    · obtain ⟨r, rs, hrs⟩ := List.exists_cons_of_ne_nil
        (splitTopLevelFrom_ne_nil sep (s.step sep c).2 (u ++ sep :: v))
      rw [hrs] at hpieces
      obtain ⟨rfl, hrest⟩ := List.cons.inj hpieces
      have hjoin := intercalate_consHead [sep] c (List.cons_ne_nil r ps)
      rw [consHead, hu] at hjoin
      refine ih r ps (List.cons_ne_nil r ps) ?_ (List.cons.inj hjoin).2.symm
      rw [hrs, hrest]
      rfl

/-- The pieces of a text from some nesting on part at a separator if and only if it is cut at. -/
theorem exists_pieces_iff (sep : Char) (s : Nesting) (u v : List Char) :
    (∃ ps qs, ps ≠ [] ∧ qs ≠ [] ∧ splitTopLevelFrom sep s (u ++ sep :: v) = ps ++ qs ∧
        [sep].intercalate ps = u ∧ [sep].intercalate qs = v) ↔
      ((s.after sep u).step sep sep).1 = true := by
  constructor
  · rintro ⟨ps, qs, hps, -, hpieces, hu, -⟩
    exact step_eq_true_of_pieces hps hpieces hu
  · intro hcut
    have hne := splitTopLevelFrom_ne_nil sep s u
    refine ⟨splitTopLevelFrom sep s u, splitTopLevelFrom sep ((s.after sep u).step sep sep).2 v, hne,
      splitTopLevelFrom_ne_nil _ _ _, ?_, intercalate_splitTopLevelFrom _ _ _,
      intercalate_splitTopLevelFrom _ _ _⟩
    rw [splitTopLevelFrom_append, splitTopLevelFrom_cons, if_pos hcut, joinPieces_nil_cons hne]

/-! ## Brackets outside literals -/

/-- The closing one of two brackets, angles aside. -/
def closing? (c : Char) : Option Char :=
  if c = '(' then some ')' else if c = '[' then some ']' else if c = '{' then some '}' else none

/-- What a character adds to the open brackets, angles aside. -/
def pairStep (c : Char) : Int :=
  if (closing? c).isSome then 1 else if c = ')' || c = ']' || c = '}' then -1 else 0

/-- A character that may separate pieces. -/
def IsSeparator (c : Char) : Prop :=
  c ≠ '"' ∧ c ≠ '\'' ∧ isOpening c = false ∧ isClosing c = false

instance (c : Char) : Decidable (IsSeparator c) :=
  inferInstanceAs (Decidable (c ≠ '"' ∧ c ≠ '\'' ∧ isOpening c = false ∧ isClosing c = false))

theorem bracketSteps_of_isOpening {c : Char} (h : isOpening c) : pairStep c + angleStep c = 1 := by
  simp only [isOpening, Bool.or_eq_true, decide_eq_true_eq] at h
  rcases h with ((rfl | rfl) | rfl) | rfl <;> rfl

theorem bracketSteps_of_isClosing {c : Char} (h : isClosing c) : pairStep c + angleStep c = -1 := by
  simp only [isClosing, Bool.or_eq_true, decide_eq_true_eq] at h
  rcases h with ((rfl | rfl) | rfl) | rfl <;> rfl

theorem bracketSteps_of_isSeparator {c : Char} (hopen : isOpening c = false)
    (hclose : isClosing c = false) : pairStep c + angleStep c = 0 := by
  simp only [isOpening, isClosing, Bool.or_eq_false_iff, decide_eq_false_iff_not] at hopen hclose
  obtain ⟨⟨⟨hless, hparen⟩, hsquare⟩, hcurly⟩ := hopen
  obtain ⟨⟨⟨hmore, hunparen⟩, hunsquare⟩, huncurly⟩ := hclose
  simp [pairStep, angleStep, closing?, hless, hparen, hsquare, hcurly, hmore, hunparen, hunsquare,
    huncurly]

namespace Nesting

/-- How many brackets are open. -/
def depth : Nesting → Int
  | .code depth _ | .literal depth _ | .escape depth _ => depth

/-- Whether it stands outside literals. -/
def inCode : Nesting → Bool
  | .code _ _ => true
  | .literal _ _ | .escape _ _ => false

theorem depth_step (sep : Char) (s : Nesting) (c : Char) :
    (s.step sep c).2.depth =
      s.depth + if s.inCode && (s.step sep c).2.inCode then pairStep c + angleStep c else 0 := by
  cases s with
  | literal depth quote =>
    rw [step]
    split_ifs <;> simp [Nesting.depth, inCode] at *
  | escape depth quote => exact (Int.add_zero _).symm
  | code depth afterWord =>
    by_cases hquote : c = '"' || (c = '\'' && !afterWord)
    · have hstep : (code depth afterWord).step sep c = (false, .literal depth c) := if_pos hquote
      rw [hstep]
      exact (Int.add_zero _).symm
    by_cases hopen : isOpening c
    · have hstep : (code depth afterWord).step sep c = (false, .code (depth + 1) false) := by
        rw [step, if_neg hquote, if_pos hopen]
      rw [hstep, bracketSteps_of_isOpening hopen]
      rfl
    by_cases hclose : isClosing c
    · have hstep : (code depth afterWord).step sep c = (false, .code (depth - 1) false) := by
        rw [step, if_neg hquote, if_neg hopen, if_pos hclose]
      rw [hstep, bracketSteps_of_isClosing hclose]
      rfl
    · have hstep : ((code depth afterWord).step sep c).2 = .code depth c.isAlphanum := by
        rw [step, if_neg hquote, if_neg hopen, if_neg hclose]
      have hzero := bracketSteps_of_isSeparator (Bool.eq_false_iff.2 hopen) (Bool.eq_false_iff.2 hclose)
      rw [hstep, hzero]
      exact (Int.add_zero _).symm

/-- A separator is cut at outside literals where no more brackets are open than closed. -/
theorem fst_step_sep_iff {sep : Char} (hsep : IsSeparator sep) (s : Nesting) :
    (s.step sep sep).1 = true ↔ s.inCode = true ∧ s.depth ≤ 0 := by
  obtain ⟨hdouble, hsingle, hopen, hclose⟩ := hsep
  cases s with
  | literal depth quote =>
    rw [step]
    split_ifs <;> simp [inCode]
  | escape depth quote => simp [step, inCode]
  | code depth afterWord => simp [step, inCode, Nesting.depth, hdouble, hsingle, hopen, hclose]

end Nesting

/-- The characters of a text outside literals, to which their quotes belong. -/
def codeFrom (sep : Char) (s : Nesting) : List Char → List Char
  | [] => []
  | c :: cs =>
    if s.inCode && (s.step sep c).2.inCode then c :: codeFrom sep (s.step sep c).2 cs
    else codeFrom sep (s.step sep c).2 cs

theorem codeFrom_append (sep : Char) (s : Nesting) (u v : List Char) :
    codeFrom sep s (u ++ v) = codeFrom sep s u ++ codeFrom sep (s.after sep u) v := by
  induction u generalizing s with
  | nil => rfl
  | cons c u ih =>
    have hafter : s.after sep (c :: u) = (s.step sep c).2.after sep u := rfl
    rw [List.cons_append, codeFrom, codeFrom, hafter, ih]
    split <;> rfl

theorem depth_after (sep : Char) (s : Nesting) (cs : List Char) :
    (s.after sep cs).depth =
      s.depth + (total pairStep (codeFrom sep s cs) + total angleStep (codeFrom sep s cs)) := by
  induction cs generalizing s with
  | nil => exact (Int.add_zero _).symm
  | cons c cs ih =>
    have hafter : s.after sep (c :: cs) = (s.step sep c).2.after sep cs := rfl
    rw [hafter, ih, Nesting.depth_step, codeFrom]
    split
    · rw [total, total]
      omega
    · omega

/-- How many more brackets a text has opened than closed, by what each character adds to them. -/
def surplus (sep : Char) (step : Char → Int) (cs : List Char) : Int :=
  total step (codeFrom sep .start cs)

theorem isCutAt_iff {sep : Char} (hsep : IsSeparator sep) (u v : List Char) :
    IsCutAt sep u v ↔ (Nesting.start.after sep u).inCode ∧
      surplus sep pairStep u + surplus sep angleStep u ≤ 0 := by
  have hdepth := depth_after sep .start u
  have hstart : Nesting.start.depth = 0 := rfl
  rw [hstart, Int.zero_add] at hdepth
  rw [IsCutAt, splitTopLevel, exists_pieces_iff, Nesting.fst_step_sep_iff hsep, hdepth, surplus,
    surplus]

/-! ## Inside a pair -/

/-- Brackets each of which has its match, the pairs being side by side or one inside another. -/
inductive Balanced : List Char → Prop
  | nil : Balanced []
  | pair {o c : Char} {inner rest : List Char} (closes : closing? o = some c)
      (inside : Balanced inner) (behind : Balanced rest) : Balanced (o :: (inner ++ c :: rest))

theorem pairStep_of_closing? {o c : Char} (h : closing? o = some c) :
    pairStep o = 1 ∧ pairStep c = -1 := by
  have hopen : pairStep o = 1 := if_pos (Option.isSome_of_eq_some h)
  refine ⟨hopen, ?_⟩
  unfold closing? at h
  split_ifs at h <;> cases h <;> rfl

theorem Balanced.total_eq_zero {cs : List Char} (h : Balanced cs) : total pairStep cs = 0 := by
  induction h with
  | nil => rfl
  | pair closes _ _ ihInside ihBehind =>
    obtain ⟨hopen, hclose⟩ := pairStep_of_closing? closes
    rw [total, total_append, total, ihInside, ihBehind, hopen, hclose]
    rfl

/-- No start of matched brackets closes one that it has not opened. -/
theorem Balanced.total_nonneg {cs u : List Char} (h : Balanced cs) (hu : u <+: cs) :
    0 ≤ total pairStep u := by
  induction h generalizing u with
  | nil =>
    rw [List.prefix_nil.1 hu]
    exact Int.le_refl 0
  | @pair o c inner rest closes inside behind ihInside ihBehind =>
    obtain ⟨hopen, hclose⟩ := pairStep_of_closing? closes
    cases u with
    | nil => exact Int.le_refl 0
    | cons d u =>
      obtain ⟨rfl, t, ht⟩ := List.cons_prefix_cons.1 hu
      rw [total, hopen]
      rcases List.append_eq_append_iff.1 ht with ⟨w, hw, -⟩ | ⟨w, rfl, hw⟩
      · have hinner := ihInside ⟨w, hw.symm⟩
        omega
      · rw [total_append, inside.total_eq_zero]
        cases w with
        | nil =>
          rw [total]
          omega
        | cons e w =>
          obtain ⟨rfl, rfl⟩ := List.cons.inj hw
          have hrest := ihBehind (List.prefix_append w t)
          rw [total, hclose]
          omega

/-- A bracket other than an angle. -/
def isPaired (c : Char) : Bool := pairStep c ≠ 0

theorem total_pairStep_filter (cs : List Char) :
    total pairStep (cs.filter isPaired) = total pairStep cs := by
  induction cs with
  | nil => rfl
  | cons c cs ih =>
    rw [List.filter_cons, total]
    split
    · rw [total, ih]
    · rename_i hzero
      have hstep : pairStep c = 0 := by simpa [isPaired] using hzero
      rw [ih, hstep, Int.zero_add]

/-- Behind some text a bracket outside literals and its match, with a text between them. -/
structure IsPair (sep : Char) (before : List Char) (o : Char) (inner : List Char) (c : Char) :
    Prop where
  closes : closing? o = some c
  starts : (Nesting.start.after sep before).inCode
  balanced :
    Balanced ((codeFrom sep (Nesting.start.after sep (before ++ [o])) inner).filter isPaired)
  stops : (Nesting.start.after sep (before ++ o :: inner)).inCode

/-- A bracket outside literals is followed by what is outside literals too. -/
theorem codeFrom_bracket {o c : Char} (h : closing? o = some c) (sep : Char) {s : Nesting}
    (hs : s.inCode) (cs : List Char) :
    codeFrom sep s (o :: cs) = o :: codeFrom sep (s.step sep o).2 cs := by
  cases s with
  | literal depth quote | escape depth quote => cases hs
  | code depth afterWord =>
    rw [codeFrom, if_pos]
    unfold closing? at h
    split_ifs at h with hparen hsquare hcurly
    · subst hparen
      rfl
    · subst hsquare
      rfl
    · subst hcurly
      rfl

section Inside

variable {sep o c : Char} {before u v : List Char}

/-- The brackets open at a place inside a pair are those open in front of it, the bracket of the
pair and those of the pairs around the place inside it. -/
theorem IsPair.surplus_lt (h : IsPair sep before o (u ++ v) c) :
    surplus sep pairStep before < surplus sep pairStep (before ++ o :: u) := by
  have hinner := h.balanced
  have hafter : Nesting.start.after sep (before ++ [o]) =
      ((Nesting.start.after sep before).step sep o).2 := by
    rw [Nesting.after, List.foldl_append]
    rfl
  rw [codeFrom_append, List.filter_append, hafter] at hinner
  have hnested := hinner.total_nonneg (List.prefix_append _ _)
  rw [total_pairStep_filter] at hnested
  rw [surplus, surplus, codeFrom_append, codeFrom_bracket h.closes sep h.starts, total_append, total,
    (pairStep_of_closing? h.closes).1]
  omega

end Inside

/-- Inside a pair of brackets a text is cut at a separator if and only if the separator is outside
literals and, angles included, no more brackets have been opened in front of it than closed. At least
one bracket more is open there than in front of the pair. So if the text in front of the pair
closes no more brackets than it opens, the text is not cut inside the pair unless it has more `>`
than `<` in front of the separator. -/
theorem isCutAt_inside_iff {sep o c : Char} {before u v : List Char} (hsep : IsSeparator sep)
    (h : IsPair sep before o (u ++ sep :: v) c) (after : List Char) :
    let front := before ++ o :: u
    let behind := v ++ c :: after
    (IsCutAt sep front behind ↔ (Nesting.start.after sep front).inCode ∧
        surplus sep pairStep front + surplus sep angleStep front ≤ 0) ∧
      surplus sep pairStep before < surplus sep pairStep front ∧
      (0 ≤ surplus sep pairStep before → IsCutAt sep front behind → surplus sep angleStep front < 0) := by
  intro front behind
  have hcut := isCutAt_iff hsep front behind
  have hopen : surplus sep pairStep before < surplus sep pairStep front := h.surplus_lt
  refine ⟨hcut, hopen, fun hbefore h => ?_⟩
  have hdepth := (hcut.1 h).2
  omega

/-- A call behind a list in angles, with an index and a literal among its arguments. -/
theorem maximum_not_cut :
    let before := "long n = max<long>".toList
    let u := "a[i]".toList
    let v := " b['(']".toList
    let after := ", bool b".toList
    IsSeparator ',' ∧ IsPair ',' before '(' (u ++ ',' :: v) ')' ∧
      surplus ',' pairStep before = 0 ∧ surplus ',' angleStep (before ++ '(' :: u) = 0 ∧
      ¬ IsCutAt ',' (before ++ '(' :: u) (v ++ ')' :: after) := by
  intro before u v after
  have hsep : IsSeparator ',' := by decide
  have hinner : (codeFrom ',' (Nesting.start.after ',' (before ++ ['('])) (u ++ ',' :: v)).filter
      isPaired = ['[', ']', '[', ']'] := by decide
  have hpair : IsPair ',' before '(' (u ++ ',' :: v) ')' := by
    refine ⟨rfl, by decide, ?_, by decide⟩
    rw [hinner]
    have hindex : Balanced ['[', ']'] := @Balanced.pair _ _ [] [] rfl .nil .nil
    exact @Balanced.pair _ _ [] _ rfl .nil hindex
  have hbefore : surplus ',' pairStep before = 0 := by decide
  have hangles : surplus ',' angleStep (before ++ '(' :: u) = 0 := by decide
  refine ⟨hsep, hpair, hbefore, hangles, fun hcut => ?_⟩
  have hless := (isCutAt_inside_iff hsep hpair after).2.2 (Int.le_of_eq hbefore.symm) hcut
  rw [hangles] at hless
  exact absurd hless (by decide)

/-- A call through a pointer, the arrow of which closes a bracket that is not open. -/
theorem arrow_cut :
    let before := "int n = p->f".toList
    let u := "1".toList
    let v := " 2".toList
    IsSeparator ',' ∧ IsPair ',' before '(' (u ++ ',' :: v) ')' ∧
      IsCutAt ',' (before ++ '(' :: u) (v ++ [')']) ∧
      splitTopLevel ',' "int n = p->f(1, 2)".toList = ["int n = p->f(1".toList, " 2)".toList] := by
  intro before u v
  have hinner : (codeFrom ',' (Nesting.start.after ',' (before ++ ['('])) (u ++ ',' :: v)).filter
      isPaired = [] := by decide
  have hpieces : splitTopLevel ',' "int n = p->f(1, 2)".toList =
      ["int n = p->f(1".toList, " 2)".toList] := by decide
  refine ⟨by decide, ⟨rfl, by decide, hinner ▸ .nil, by decide⟩, ?_, hpieces⟩
  exact ⟨["int n = p->f(1".toList], [" 2)".toList], List.cons_ne_nil _ _, List.cons_ne_nil _ _,
    hpieces, rfl, rfl⟩

end ChaiBind.Text
