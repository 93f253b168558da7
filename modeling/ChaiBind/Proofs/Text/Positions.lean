import ChaiBind.Proofs.Text.Characters
import ChaiBind.Text.Cursor
import Mathlib.Data.List.Basic

/-!
# Properties of positions

Whether a text contains something, and how often, is a matter of its positions,
each with the character before it and the text after it. A character that cannot
be part of what is looked for cuts a text into two that are looked at one by one
(`countFrom_append_cons`).

* `containsWord_append_cons`: a character outside words does so for words.
* `startsWithWord_append_cons`: what comes after such a character does not matter for
  a word in front of it.
-/

namespace ChaiBind.Text

/-- How many positions of a text, with some character before it, have a property. -/
def countFrom (p : Option Char → List Char → Bool) (before : Option Char) : List Char → Nat
  | [] => (p before []).toNat
  | c :: cs => (p before (c :: cs)).toNat + countFrom p (some c) cs

variable {p : Option Char → List Char → Bool}

theorem countP_cursorsFrom (before : Option Char) (offset : Nat) (cs : List Char) :
    (cursorsFrom before offset cs).countP (fun q => p q.before q.rest) =
      countFrom p before cs := by
  induction cs generalizing before offset with
  | nil =>
    rw [cursorsFrom, countFrom, List.countP_singleton]
    cases p before [] <;> rfl
  | cons c cs ih =>
    rw [cursorsFrom, countFrom, List.countP_cons, ih, Nat.add_comm]
    cases p before (c :: cs) <;> rfl

theorem any_cursors (cs : List Char) :
    (cursors cs).any (fun q => p q.before q.rest) = decide (0 < countFrom p none cs) := by
  rw [cursors, ← countP_cursorsFrom none 0 cs, Bool.eq_iff_iff, decide_eq_true_eq,
    List.countP_pos_iff, List.any_eq_true]

/-- A character at which nothing that is looked for can start or go on cuts the text in two. -/
theorem countFrom_append_cons {d : Char} {v : List Char}
    (hp : ∀ before x, p before (x ++ d :: v) = p before x) (before : Option Char)
    (u : List Char) :
    countFrom p before (u ++ d :: v) = countFrom p before u + countFrom p (some d) v := by
  induction u generalizing before with
  | nil =>
    have hnil := hp before []
    rw [List.nil_append] at hnil
    rw [List.nil_append, countFrom, countFrom, hnil]
  | cons c u ih =>
    have hcons := hp before (c :: u)
    rw [List.cons_append] at hcons
    rw [List.cons_append, countFrom, countFrom, hcons, ih, Nat.add_assoc]

theorem countFrom_eq_zero {before : Option Char} {cs : List Char}
    (h : ∀ before x, x <:+ cs → p before x = false) : countFrom p before cs = 0 := by
  induction cs generalizing before with
  | nil => rw [countFrom, h before [] (List.suffix_refl _), Bool.toNat_false]
  | cons c cs ih =>
    rw [countFrom, h before _ (List.suffix_refl _), Bool.toNat_false, Nat.zero_add]
    exact ih fun b x hx => h b x (hx.trans (List.suffix_cons c cs))

/-- What is found at a place in a text is counted. -/
theorem countFrom_append_pos {before : Option Char} {u v : List Char}
    (h : p (u.getLast?.or before) v) : 0 < countFrom p before (u ++ v) := by
  induction u generalizing before with
  | nil =>
    have hv : p before v := h
    cases v with
    | nil => simp [countFrom, hv]
    | cons c v =>
      rw [List.nil_append, countFrom, hv]
      exact Nat.add_pos_left Nat.one_pos _
  | cons c u ih =>
    rw [List.cons_append, countFrom]
    rw [List.getLast?_cons, Option.some_or, ← Option.or_some] at h
    exact Nat.lt_of_lt_of_le (ih h) (Nat.le_add_left _ _)

/-- Of the character before a text it only matters whether it belongs to a word. -/
theorem countFrom_congr_before {before before' : Option Char} {cs : List Char}
    (h : p before cs = p before' cs) : countFrom p before cs = countFrom p before' cs := by
  cases cs <;> simp only [countFrom, h]

/-! ## Prefixes -/

theorem isPrefixOf_append_cons {w : List Char} {d : Char} (hd : d ∉ w) (x v : List Char) :
    w.isPrefixOf (x ++ d :: v) = w.isPrefixOf x := by
  rw [Bool.eq_iff_iff, List.isPrefixOf_iff_prefix, List.isPrefixOf_iff_prefix]
  constructor
  · rintro ⟨t, ht⟩
    rcases List.append_eq_append_iff.1 ht with ⟨a, hx, -⟩ | ⟨a, hw, hv⟩
    · exact ⟨a, hx.symm⟩
    · cases a with
      | nil => exact ⟨[], by rw [hw, List.append_nil, List.append_nil]⟩
      | cons e a =>
        obtain ⟨rfl, -⟩ := List.cons.inj hv
        exact absurd (hw ▸ List.mem_append_right x List.mem_cons_self) hd
  · intro h
    exact h.trans (List.prefix_append x _)

/-! ## Words -/

/-- What is outside words is not in a text of word characters. -/
theorem notMem_of_isWord {w : List Char} {d : Char} (hw : ∀ c ∈ w, isWord c)
    (hd : isWord d = false) : d ∉ w := fun h => by
  rw [hw d h] at hd
  cases hd

theorem startsWithWord_iff {w cs : List Char} :
    startsWithWord w cs ↔ ∃ rest, w ++ rest = cs ∧ rest.head?.any isWord = false := by
  rw [startsWithWord, afterWord?, Option.isSome_iff_exists]
  simp only [Option.filter_eq_some_iff, List.isPrefixOf?_eq_some_iff_append_eq, Bool.not_eq_true']

/-- What comes after a character outside words does not matter for a word before it. -/
theorem startsWithWord_append_cons {w : List Char} {d : Char} (hd : d ∉ w) (hword : isWord d = false)
    (x v : List Char) : startsWithWord w (x ++ d :: v) = startsWithWord w x := by
  rw [Bool.eq_iff_iff, startsWithWord_iff, startsWithWord_iff]
  constructor
  · rintro ⟨rest, hrest, hhead⟩
    rcases List.append_eq_append_iff.1 hrest with ⟨a, hx, ha⟩ | ⟨a, hw, ha⟩
    · refine ⟨a, hx.symm, ?_⟩
      cases a with
      | nil => rfl
      | cons e a =>
        rw [ha] at hhead
        exact hhead
    · cases a with
      | nil => exact ⟨[], by rw [hw, List.append_nil, List.append_nil], rfl⟩
      | cons e a =>
        obtain ⟨rfl, -⟩ := List.cons.inj ha
        exact absurd (hw ▸ List.mem_append_right x List.mem_cons_self) hd
  · rintro ⟨rest, rfl, hhead⟩
    refine ⟨rest ++ d :: v, (List.append_assoc ..).symm, ?_⟩
    cases rest with
    | nil => simpa using hword
    | cons e rest => exact hhead

/-- A word starts at a position with some character before it. -/
def wordAt (w : List Char) (before : Option Char) (rest : List Char) : Bool :=
  !before.any isWord && startsWithWord w rest

theorem containsWord_eq (w cs : List Char) :
    containsWord w cs = decide (0 < countFrom (wordAt w) none cs) := by
  rw [← any_cursors]
  rfl

theorem containsWord_eq_false_iff {w cs : List Char} :
    containsWord w cs = false ↔ countFrom (wordAt w) none cs = 0 := by
  rw [containsWord_eq, decide_eq_false_iff_not, Nat.pos_iff_ne_zero, not_not]

section

variable {w : List Char} {d : Char} (hd : d ∉ w) (hword : isWord d = false)
include hd hword

theorem countFrom_wordAt_append_cons (before : Option Char) (u v : List Char) :
    countFrom (wordAt w) before (u ++ d :: v) =
      countFrom (wordAt w) before u + countFrom (wordAt w) none v := by
  have hp : ∀ before x, wordAt w before (x ++ d :: v) = wordAt w before x := fun before x => by
    rw [wordAt, startsWithWord_append_cons hd hword, wordAt]
  have hbefore : countFrom (wordAt w) (some d) v = countFrom (wordAt w) none v :=
    countFrom_congr_before (by simp [wordAt, hword])
  rw [countFrom_append_cons hp, hbefore]

/-- A character outside words cuts a text into two in which words are looked for. -/
theorem containsWord_append_cons (u v : List Char) :
    containsWord w (u ++ d :: v) = (containsWord w u || containsWord w v) := by
  rw [containsWord_eq, countFrom_wordAt_append_cons hd hword, containsWord_eq, containsWord_eq,
    Bool.eq_iff_iff, Bool.or_eq_true, decide_eq_true_eq, decide_eq_true_eq, decide_eq_true_eq]
  omega

end

end ChaiBind.Text
