import ChaiBind.Header.Signature
import ChaiBind.Proofs.Text.Characters

/-!
# The search for a signature

A signature is looked for from left to right, so that the signature of a text is
one whose name starts in its first part, if there is any, or else one whose name
starts in the rest (`signatureFrom?_append`). Whether a parameter list can be
read depends on how deep its parentheses nest.

* `takeParams_append`: a list in which parentheses nest one deep at most is read
  whole, any other one is not.
* `signatureFrom?_call`: what the search finds from a name with a list on.
-/

namespace ChaiBind.Header

open Text

/-! ## Parameter lists -/

/-- How deep the parentheses of a text nest that starts at a depth, if all of them, and those that
are open at the start, have their matches. -/
def nestingFrom (depth : Nat) : List Char → Option Nat
  | [] => if depth = 0 then some 0 else none
  | c :: cs =>
    if c = '(' then (nestingFrom (depth + 1) cs).map (max (depth + 1))
    else if c = ')' then if depth = 0 then none else nestingFrom (depth - 1) cs
    else nestingFrom depth cs

/-- How deep the parentheses of a text nest, if they are balanced. -/
def nesting? (cs : List Char) : Option Nat := nestingFrom 0 cs

/-- A parameter list is read whole if its parentheses nest one deep at most, and otherwise not at
all. -/
theorem takeParams_append {nested : Bool} {params : List Char} {n : Nat}
    (h : nestingFrom nested.toNat params = some n) (rest : List Char) :
    takeParams nested (params ++ ')' :: rest) = if n ≤ 1 then some (params, rest) else none := by
  induction params generalizing nested n with
  | nil =>
    cases nested with
    | false =>
      obtain rfl : 0 = n := Option.some.inj h
      rfl
    | true => cases h
  | cons c cs ih =>
    rw [nestingFrom] at h
    rw [List.cons_append, takeParams]
    by_cases hopen : c = '('
    · rw [if_pos hopen, Option.map_eq_some_iff] at h
      obtain ⟨m, hm, rfl⟩ := h
      rw [if_pos hopen]
      cases nested with
      | false =>
        -- One parenthesis is open, and those inside it count from there.
        have hmax : max (false.toNat + 1) m ≤ 1 ↔ m ≤ 1 := by
          rw [Bool.toNat_false]
          omega
        rw [if_neg Bool.false_ne_true, @ih true m hm]
        simp only [hmax]
        split <;> rfl
      | true =>
        rw [if_pos rfl, if_neg]
        rw [Bool.toNat_true]
        omega
    · rw [if_neg hopen] at h ⊢
      by_cases hclose : c = ')'
      · rw [if_pos hclose] at h ⊢
        cases nested with
        | false => cases h
        | true =>
          rw [if_pos rfl, @ih false n h]
          split <;> rfl
      · rw [if_neg hclose] at h ⊢
        rw [ih h]
        split <;> rfl

/-! ## Names in a part of a text -/

/-- The first signature whose name starts in a text that another one follows. -/
def signatureWithin? (passed : List Char) : List Char → List Char → Option Signature
  | [], _ => none
  | c :: cs, rest =>
    (signatureAt? passed (c :: cs ++ rest)).or (signatureWithin? (c :: passed) cs rest)

theorem signatureFrom?_append (passed u v : List Char) :
    signatureFrom? passed (u ++ v) =
      (signatureWithin? passed u v).or (signatureFrom? (u.reverse ++ passed) v) := by
  induction u generalizing passed with
  | nil => rfl
  | cons c cs ih =>
    rw [List.cons_append, signatureFrom?, ih, signatureWithin?, List.reverse_cons,
      List.append_assoc, List.singleton_append, Option.or_assoc, List.cons_append]

theorem signatureAt?_eq_none_of_isWord {passed cs : List Char}
    (h : passed.head?.any isWord = true) : signatureAt? passed cs = none := by
  rw [signatureAt?, h]
  rfl

theorem signatureAt?_eq_none_of_start {passed cs : List Char} {c : Char}
    (h : isIdentifierStart c = false) : signatureAt? passed (c :: cs) = none := by
  have hname : takeIdentifier (c :: cs) = none := by simp [takeIdentifier, h]
  rw [signatureAt?, hname]
  cases passed.head?.any isWord <;> rfl

/-- No name starts inside a word. -/
theorem signatureWithin?_eq_none_of_isWord {passed u : List Char}
    (h : passed.head?.any isWord = true) (hu : ∀ c ∈ u, isWord c) (v : List Char) :
    signatureWithin? passed u v = none := by
  induction u generalizing passed with
  | nil => rfl
  | cons c cs ih =>
    obtain ⟨hc, hcs⟩ := List.forall_mem_cons.1 hu
    rw [signatureWithin?, signatureAt?_eq_none_of_isWord h, Option.none_or]
    exact ih (by simpa using hc) hcs

theorem signatureWithin?_eq_none_of_start {u : List Char}
    (hu : ∀ c ∈ u, isIdentifierStart c = false) (passed v : List Char) :
    signatureWithin? passed u v = none := by
  induction u generalizing passed with
  | nil => rfl
  | cons c cs ih =>
    obtain ⟨hc, hcs⟩ := List.forall_mem_cons.1 hu
    rw [signatureWithin?, List.cons_append, signatureAt?_eq_none_of_start hc, Option.none_or]
    exact ih hcs (c :: passed)

/-- What comes before the name of a signature starts with what the search has passed. -/
theorem before_of_signatureFrom? {passed cs : List Char} {s : Signature}
    (h : signatureFrom? passed cs = some s) : passed.reverse <+: s.before := by
  induction cs generalizing passed with
  | nil => cases h
  | cons c cs ih =>
    rw [signatureFrom?, Option.or_eq_some_iff] at h
    rcases h with h | ⟨-, h⟩
    · obtain ⟨_, -, h⟩ := Option.bind_eq_some_iff.1 h
      obtain ⟨_, -, h⟩ := Option.bind_eq_some_iff.1 h
      obtain ⟨_, -, h⟩ := Option.bind_eq_some_iff.1 h
      obtain ⟨_, -, h⟩ := Option.bind_eq_some_iff.1 h
      obtain rfl := Option.some.inj h
      exact List.prefix_refl _
    · have hpre := ih h
      rw [List.reverse_cons] at hpre
      exact (List.prefix_append _ _).trans hpre

/-! ## A name with a parameter list -/

section Call

variable {passed name gap : List Char} (hpassed : passed.head?.any isWord = false)
  (hname : IsIdentifier name) (hgap : ∀ c ∈ gap, isBlank c) (list : List Char)
include hpassed hname hgap

theorem signatureAt?_call :
    signatureAt? passed (name ++ (gap ++ '(' :: list)) =
      (takeParams false list).map fun p => ⟨passed.reverse, name, p.1, p.2⟩ := by
  have hrest : (gap ++ '(' :: list).head?.any isWord = false := by
    cases gap with
    | nil => rfl
    | cons c cs => exact isWord_eq_false_of_isBlank (hgap c List.mem_cons_self)
  have htrim : trimStart (gap ++ '(' :: list) = '(' :: list := by
    rw [trimStart, List.dropWhile_append_of_pos hgap]
    rfl
  have hopen : ['('].isPrefixOf? ('(' :: list) = some list := rfl
  have hguard : (guard (!false) : Option Unit) = some () := rfl
  rw [signatureAt?, hpassed, hguard, takeIdentifier_append hname hrest]
  simp only [Option.bind_eq_bind, Option.bind_some, htrim, hopen]
  cases takeParams false list <;> rfl

/-- From a name with a list on the search finds the list, if it can be read, or else what it finds
after the parenthesis that opens the list. -/
theorem signatureFrom?_call :
    signatureFrom? passed (name ++ (gap ++ '(' :: list)) =
      ((takeParams false list).map fun p => ⟨passed.reverse, name, p.1, p.2⟩).or
        (signatureFrom? ((name ++ gap ++ ['(']).reverse ++ passed) list) := by
  rw [← signatureAt?_call hpassed hname hgap list]
  cases name with
  | nil => cases hname
  | cons c cs =>
    obtain ⟨hc, hcs⟩ := isIdentifier_cons.1 hname
    have hstart : ∀ d ∈ gap ++ ['('], isIdentifierStart d = false := by
      rw [List.forall_mem_append, List.forall_mem_singleton]
      exact ⟨fun d hd => isIdentifierStart_eq_false (isWord_eq_false_of_isBlank (hgap d hd)), rfl⟩
    rw [List.cons_append, signatureFrom?, signatureFrom?_append,
      signatureWithin?_eq_none_of_isWord (by simpa using isWord_of_isIdentifierStart hc) hcs,
      Option.none_or, List.append_cons gap, signatureFrom?_append,
      signatureWithin?_eq_none_of_start hstart, Option.none_or]
    simp only [List.reverse_append, List.reverse_cons, List.append_assoc, List.singleton_append]

end Call

end ChaiBind.Header
