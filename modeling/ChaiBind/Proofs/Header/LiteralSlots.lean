import ChaiBind.Proofs.Header.ReturnTypes
import ChaiBind.Proofs.Header.SignatureParts
import ChaiBind.Proofs.Text.Literals
import Mathlib.Data.Option.Basic

/-!
# Signatures of lines with a literal

Where a literal stands in the signature of its line does not depend on what it says,
as long as it says no parenthesis: in front of the name, between the parentheses of
the list or behind the list. A signature with a hole for the literal is a `Slot`, and
a search that finds one whatever the literal says is `Slotted`.

* `listSlot`: reading a parameter list around a literal.
* `slotted_signature?`: the signature of a line with a literal.
-/

namespace ChaiBind.Header

open Text

/-- A signature with a hole. -/
inductive Slot
  | front (between name params after : List Char)
  | inside (before name gap first last after : List Char)
  | behind (before name gap params between : List Char)

namespace Slot

/-- The signature with a text in the hole, of a line that has `x` before and `y` after the hole. -/
def fill (x y w : List Char) : Slot → Signature
  | .front between name params after => ⟨x ++ (w ++ between), name, params, after⟩
  | .inside before name _ first last after => ⟨before, name, first ++ (w ++ last), after⟩
  | .behind before name _ params between => ⟨before, name, params, between ++ (w ++ y)⟩

/-- The parts before the hole make up what comes before it on the line. -/
def FitsIn (x : List Char) : Slot → Prop
  | .front .. => True
  | .inside before name gap first _ _ =>
    (∀ c ∈ gap, isBlank c) ∧ x = before ++ (name ++ (gap ++ '(' :: first))
  | .behind before name gap params between =>
    (∀ c ∈ gap, isBlank c) ∧ x = before ++ (name ++ (gap ++ '(' :: (params ++ ')' :: between)))

end Slot

/-- A text that the parentheses around it can be told from. -/
def NoParens (w : List Char) : Prop := '(' ∉ w ∧ ')' ∉ w

instance (w : List Char) : Decidable (NoParens w) :=
  inferInstanceAs (Decidable ('(' ∉ w ∧ ')' ∉ w))

theorem NoParens.quoted {u : List Char} (h : NoParens u) : NoParens (quoted u) := by
  simp only [NoParens, Text.quoted, List.mem_cons, List.mem_append, not_or]
  exact ⟨⟨by decide, h.1, by decide⟩, by decide, h.2, by decide⟩

/-! ## Parameter lists -/

theorem takeParams_append_of_noParens {w : List Char} (h : NoParens w) (nested : Bool)
    (cs : List Char) :
    takeParams nested (w ++ cs) = (takeParams nested cs).map fun p => (w ++ p.1, p.2) := by
  induction w with
  | nil =>
    rw [List.nil_append]
    cases takeParams nested cs <;> rfl
  | cons c w ih =>
    obtain ⟨hopen, hclose⟩ := h
    rw [List.mem_cons, not_or] at hopen hclose
    rw [List.cons_append, takeParams, if_neg (Ne.symm hopen.1), if_neg (Ne.symm hclose.1),
      ih ⟨hopen.2, hclose.2⟩]
    cases takeParams nested cs <;> rfl

/-- How a parameter list is read that starts with `a`, goes on with a text without parentheses and
then with `y`. -/
inductive ListSlot (nested : Bool) (a y : List Char) : Prop
  | closed (params between : List Char) (split : a = params ++ ')' :: between)
      (read : ∀ w, takeParams nested (a ++ (w ++ y)) = some (params, between ++ (w ++ y)))
  | opened (last after : List Char)
      (read : ∀ w, NoParens w → takeParams nested (a ++ (w ++ y)) = some (a ++ (w ++ last), after))
  | unread (read : ∀ w, NoParens w → takeParams nested (a ++ (w ++ y)) = none)

/-- A character in front of the list goes into it. -/
theorem ListSlot.cons {nested nested' : Bool} {a y : List Char} {c : Char}
    (h : ListSlot nested' a y)
    (hstep : ∀ cs, takeParams nested (c :: cs) =
      (takeParams nested' cs).map fun (ps, rest) => (c :: ps, rest)) :
    ListSlot nested (c :: a) y := by
  cases h with
  | closed params between split read =>
    refine .closed (c :: params) between (congrArg (c :: ·) split) fun w => ?_
    rw [List.cons_append, hstep, read, Option.map_some]
  | opened last after read =>
    refine .opened last after fun w hw => ?_
    rw [List.cons_append, hstep, read w hw, Option.map_some]
    rfl
  | unread read =>
    refine .unread fun w hw => ?_
    rw [List.cons_append, hstep, read w hw, Option.map_none]

theorem listSlot (nested : Bool) (a y : List Char) : ListSlot nested a y := by
  induction a generalizing nested with
  | nil =>
    cases h : takeParams nested y with
    | none =>
      refine .unread fun w hw => ?_
      rw [List.nil_append, takeParams_append_of_noParens hw, h, Option.map_none]
    | some p =>
      refine .opened p.1 p.2 fun w hw => ?_
      rw [List.nil_append, takeParams_append_of_noParens hw, h, Option.map_some]
      rfl
  | cons c a ih =>
    by_cases hopen : c = '('
    · subst hopen
      cases nested with
      | false => exact (ih true).cons fun cs => rfl
      | true => exact .unread fun w _ => rfl
    · by_cases hclose : c = ')'
      · subst hclose
        cases nested with
        | false => exact .closed [] a rfl fun w => rfl
        | true => exact (ih false).cons fun cs => rfl
      · refine (ih nested).cons fun cs => ?_
        rw [takeParams, if_neg hopen, if_neg hclose]

/-! ## Searches around a literal -/

/-- A search for a signature, given what a literal says, that finds the same slot for all literals
without parentheses. -/
def Slotted (x y : List Char) (search : List Char → Option Signature) : Prop :=
  ∃ slot? : Option Slot, (∀ slot ∈ slot?, slot.FitsIn x) ∧
    ∀ u, NoParens u → search u = slot?.map (Slot.fill x y (quoted u))

theorem slotted_none {x y : List Char} {search : List Char → Option Signature}
    (h : ∀ u, NoParens u → search u = none) : Slotted x y search :=
  ⟨none, nofun, h⟩

theorem slotted_some (slot : Slot) {x y : List Char} {search : List Char → Option Signature}
    (hslot : slot.FitsIn x) (h : ∀ u, NoParens u → search u = some (slot.fill x y (quoted u))) :
    Slotted x y search := by
  refine ⟨some slot, fun s hs => ?_, h⟩
  cases hs
  exact hslot

theorem Slotted.or {x y : List Char} {f g : List Char → Option Signature} (hf : Slotted x y f)
    (hg : Slotted x y g) : Slotted x y fun u => (f u).or (g u) := by
  obtain ⟨slot?, hslot, hf⟩ := hf
  cases slot? with
  | some slot =>
    refine slotted_some slot (hslot slot rfl) fun u hu => ?_
    simp only [hf u hu, Option.map_some, Option.some_or]
  | none =>
    obtain ⟨slot?', hslot', hg⟩ := hg
    refine ⟨slot?', hslot', fun u hu => ?_⟩
    simp only [hf u hu, hg u hu, Option.map_none, Option.none_or]

/-- A name that something else than blanks and a parenthesis follows starts no signature. -/
theorem signatureAt?_eq_none_of_rest {passed name gap rest : List Char} {d : Char}
    (hname : IsIdentifier name) (hhead : (gap ++ d :: rest).head?.any isWord = false)
    (hgap : ∀ c ∈ gap, isBlank c) (hblank : isBlank d = false) (hopen : d ≠ '(') :
    signatureAt? passed (name ++ (gap ++ d :: rest)) = none := by
  have htrim : trimStart (gap ++ d :: rest) = d :: rest := by
    rw [trimStart, List.dropWhile_append_of_pos hgap, List.dropWhile_cons_of_neg (by simp [hblank])]
  have hstarts : ['('].isPrefixOf? (d :: rest) = none := by
    simp [List.isPrefixOf?, Ne.symm hopen]
  rw [signatureAt?, takeIdentifier_append hname hhead]
  simp only [Option.bind_eq_bind, Option.bind_some, htrim, hstarts, Option.bind_none,
    Option.bind_fun_none]

/-- The list of a name closes in front of the literal, holds it, or does not close. -/
theorem slotted_signatureAt?_call {passed name gap : List Char}
    (hpassed : passed.head?.any isWord = false) (hname : IsIdentifier name)
    (hgap : ∀ c ∈ gap, isBlank c) (list y : List Char) :
    Slotted (passed.reverse ++ (name ++ (gap ++ '(' :: list))) y fun u =>
      signatureAt? passed (name ++ (gap ++ '(' :: list) ++ (quoted u ++ y)) := by
  have hcall : ∀ u, signatureAt? passed (name ++ (gap ++ '(' :: list) ++ (quoted u ++ y)) =
      (takeParams false (list ++ (quoted u ++ y))).map fun p =>
        ⟨passed.reverse, name, p.1, p.2⟩ := by
    intro u
    simp only [List.append_assoc, List.cons_append]
    exact signatureAt?_call hpassed hname hgap _
  cases listSlot false list y with
  | closed params between split read =>
    refine slotted_some (.behind passed.reverse name gap params between)
      ⟨hgap, ?_⟩ fun u hu => ?_
    · rw [← split]
    · rw [hcall, read]
      rfl
  | opened last after read =>
    refine slotted_some (.inside passed.reverse name gap list last after)
      ⟨hgap, rfl⟩ fun u hu => ?_
    rw [hcall, read _ hu.quoted]
    rfl
  | unread read =>
    refine slotted_none fun u hu => ?_
    rw [hcall, read _ hu.quoted]
    rfl

/-- A name with its list in front of the literal, or around it. -/
theorem slotted_signatureAt? (passed : List Char) {x : List Char} (hx : x ≠ []) (y : List Char) :
    Slotted (passed.reverse ++ x) y fun u => signatureAt? passed (x ++ (quoted u ++ y)) := by
  obtain ⟨c, cs, rfl⟩ := List.exists_cons_of_ne_nil hx
  by_cases hpassed : passed.head?.any isWord = true
  · exact slotted_none fun u _ => signatureAt?_eq_none_of_isWord hpassed
  rw [Bool.not_eq_true] at hpassed
  by_cases hc : isIdentifierStart c
  swap
  · exact slotted_none fun u _ => signatureAt?_eq_none_of_start (Bool.eq_false_iff.2 hc)
  -- The name, the blanks behind it and what comes before the literal then.
  have htake : takeIdentifier (c :: cs) = some (c :: cs.takeWhile isWord, cs.dropWhile isWord) := by
    rw [takeIdentifier, if_pos hc]
  obtain ⟨hname, hhead, hsplit⟩ := takeIdentifier_eq_some htake
  generalize c :: cs.takeWhile isWord = name at hname hsplit
  generalize cs.dropWhile isWord = rest at hhead hsplit
  have hgap : ∀ d ∈ leadingBlank rest, isBlank d := fun d hd => List.mem_takeWhile_imp hd
  have hblank : (trimStart rest).head?.any isBlank = false := any_head?_dropWhile isBlank rest
  rw [hsplit]
  cases htrim : trimStart rest with
  | nil =>
    have hrest : rest = leadingBlank rest := by
      conv_lhs => rw [← leadingBlank_append_trimStart rest, htrim, List.append_nil]
    refine slotted_none fun u _ => ?_
    have hquote := any_head?_append (v := quoted u ++ y) hhead rfl
    rw [quoted_append] at hquote
    rw [List.append_assoc, quoted_append]
    rw [hrest] at hquote ⊢
    exact signatureAt?_eq_none_of_rest hname hquote hgap (by decide) (by decide)
  | cons d list =>
    have hrest : rest = leadingBlank rest ++ d :: list := by
      rw [← htrim, leadingBlank_append_trimStart]
    rw [htrim] at hblank
    by_cases hopen : d = '('
    · subst hopen
      rw [hrest]
      exact slotted_signatureAt?_call hpassed hname hgap list y
    · refine slotted_none fun u _ => ?_
      have hquote := any_head?_append (v := quoted u ++ y) hhead rfl
      rw [List.append_assoc]
      rw [hrest, List.append_assoc, List.cons_append] at hquote ⊢
      exact signatureAt?_eq_none_of_rest hname hquote hgap hblank hopen

theorem slotted_signatureWithin? (passed x y : List Char) :
    Slotted (passed.reverse ++ x) y fun u => signatureWithin? passed x (quoted u ++ y) := by
  induction x generalizing passed with
  | nil => exact slotted_none fun u _ => rfl
  | cons c cs ih =>
    have hfirst := slotted_signatureAt? passed (List.cons_ne_nil c cs) y
    have hrest := ih (c :: passed)
    rw [List.reverse_cons, List.append_assoc, List.singleton_append] at hrest
    exact hfirst.or hrest

/-- No name with a list starts in a text without parentheses that a quote follows. -/
theorem signatureWithin?_eq_none_of_notMem {w : List Char} (hw : '(' ∉ w) (passed y : List Char) :
    signatureWithin? passed w ('"' :: y) = none := by
  induction w generalizing passed with
  | nil => rfl
  | cons c cs ih =>
    rw [signatureWithin?, ih (fun h => hw (List.mem_cons_of_mem c h)), Option.or_none]
    cases hs : signatureAt? passed (c :: cs ++ '"' :: y) with
    | none => rfl
    | some s =>
      obtain ⟨hbefore, gap, hfits⟩ := signatureAt?_eq_some hs
      have hline := hfits.line
      rw [hbefore, List.append_cancel_left_eq, ← List.append_assoc] at hline
      -- The list opens behind the quote, so that the name and the blanks hold the quote.
      obtain ⟨t, ht, hopen⟩ := exists_of_append_cons_eq hw hline.symm
      cases t with
      | nil => cases hopen
      | cons d t =>
        obtain ⟨rfl, -⟩ := List.cons.inj hopen
        have hquote : '"' ∈ s.name ++ gap := ht ▸ List.mem_append_right _ List.mem_cons_self
        rcases List.mem_append.1 hquote with hmem | hmem
        · exact absurd (hfits.name.isWord_of_mem hmem) (by decide)
        · exact absurd (hfits.gap _ hmem) (by decide)

/-- What has been passed goes in front of what comes before the name. -/
theorem signatureAt?_append_passed {p : List Char} (hp : p ≠ []) (passed cs : List Char) :
    signatureAt? (p ++ passed) cs =
      (signatureAt? p cs).map fun s => { s with before := passed.reverse ++ s.before } := by
  have hhead : (p ++ passed).head? = p.head? := List.head?_append_of_ne_nil p hp
  rw [signatureAt?, signatureAt?, hhead]
  cases p.head?.any isWord with
  | true => rfl
  | false =>
    cases takeIdentifier cs with
    | none => rfl
    | some q =>
      simp only [Option.bind_eq_bind, Option.bind_some]
      cases ['('].isPrefixOf? (trimStart q.2) with
      | none => rfl
      | some list =>
        simp only [Option.bind_some]
        cases takeParams false list with
        | none => rfl
        | some r =>
          have hbefore : (p ++ passed).reverse = passed.reverse ++ p.reverse := List.reverse_append
          simp only [Option.bind_some, hbefore]
          rfl

theorem signatureFrom?_append_passed {p : List Char} (hp : p ≠ []) (passed cs : List Char) :
    signatureFrom? (p ++ passed) cs =
      (signatureFrom? p cs).map fun s => { s with before := passed.reverse ++ s.before } := by
  induction cs generalizing p with
  | nil => rfl
  | cons c cs ih =>
    rw [signatureFrom?, signatureFrom?, signatureAt?_append_passed hp, ← List.cons_append,
      ih (List.cons_ne_nil c p), Option.map_or]

/-- A name with its list behind the literal. -/
theorem slotted_signatureFrom? (x y : List Char) :
    Slotted x y fun u => signatureFrom? x.reverse (quoted u ++ y) := by
  have hpassed : ∀ u, NoParens u → signatureFrom? x.reverse (quoted u ++ y) =
      (signatureFrom? ['"'] y).map fun s => { s with before := x ++ '"' :: u ++ s.before } := by
    intro u hu
    have hnone : signatureWithin? x.reverse ('"' :: u) ('"' :: y) = none := by
      refine signatureWithin?_eq_none_of_notMem ?_ x.reverse y
      rw [List.mem_cons, not_or]
      exact ⟨by decide, hu.1⟩
    have hquote : ∀ passed, signatureFrom? passed ('"' :: y) = signatureFrom? (['"'] ++ passed) y := by
      intro passed
      rw [signatureFrom?, signatureAt?_eq_none_of_start (by decide), Option.none_or]
      rfl
    have hreverse : (('"' :: u).reverse ++ x.reverse).reverse = x ++ '"' :: u := by
      rw [List.reverse_append, List.reverse_reverse, List.reverse_reverse]
    rw [quoted_append, ← List.cons_append, signatureFrom?_append, hnone, Option.none_or, hquote,
      signatureFrom?_append_passed (List.cons_ne_nil _ _), hreverse]
  cases hs : signatureFrom? ['"'] y with
  | none =>
    refine slotted_none fun u hu => ?_
    rw [hpassed u hu, hs]
    rfl
  | some s =>
    obtain ⟨between, hbetween⟩ := before_of_signatureFrom? hs
    refine slotted_some (.front between s.name s.params s.after) trivial fun u hu => ?_
    have hbefore : x ++ '"' :: u ++ s.before = x ++ (quoted u ++ between) := by
      rw [← hbetween, quoted_append, List.append_assoc]
      rfl
    rw [hpassed u hu, hs, Option.map_some, hbefore]
    rfl

/-- The signature of a line with a literal has the literal in the same place whatever it says. -/
theorem slotted_signature? (x y : List Char) :
    Slotted x y fun u => signature? (x ++ (quoted u ++ y)) := by
  have hsearch : (fun u => signature? (x ++ (quoted u ++ y))) = fun u =>
      (signatureWithin? [] x (quoted u ++ y)).or (signatureFrom? x.reverse (quoted u ++ y)) := by
    funext u
    rw [signature?, signatureFrom?_append, List.append_nil]
  rw [hsearch]
  exact (slotted_signatureWithin? [] x y).or (slotted_signatureFrom? x y)

end ChaiBind.Header
