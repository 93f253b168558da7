import ChaiBind.Text.Blank
import ChaiBind.Text.Identifier
import Mathlib.Data.List.TakeWhile

/-!
# Classes of characters

What starts an identifier is a word character, and no blank is one, so that a
blank always ends an identifier.

* `takeIdentifier_append`: an identifier is taken whole, up to what is no word
  character.
-/

namespace ChaiBind.Text

/-! ## Characters of a text

What holds of all characters of a text is decided along the text. The library can also decide it by
going through all characters there are, which takes too long. -/

instance decidableForallMem (p : Char → Prop) [DecidablePred p] (cs : List Char) :
    Decidable (∀ c ∈ cs, p c) :=
  List.decidableBAll p cs

instance decidableForallMemOption (p : Char → Prop) [DecidablePred p] (c? : Option Char) :
    Decidable (∀ c ∈ c?, p c) :=
  Option.decidableForallMem c?

/-! ## Word characters and blanks -/

theorem toNat_lt_of_isIdentifierStart {c : Char} (h : isIdentifierStart c) : c.toNat < 128 := by
  rw [isIdentifierStart, Bool.or_eq_true, decide_eq_true_eq] at h
  rcases h with h | rfl
  · rcases Bool.or_eq_true_iff.1 h with h | h
    · have hz : c.val ≤ 'Z'.val := (of_decide_eq_true h).2
      exact Nat.lt_of_le_of_lt hz (by decide)
    · have hz : c.val ≤ 'z'.val := of_decide_eq_true (Bool.and_eq_true_iff.1 h).2
      exact Nat.lt_of_le_of_lt hz (by decide)
  · decide

theorem toNat_lt_of_isAlphanum {c : Char} (h : c.isAlphanum) : c.toNat < 128 := by
  rw [Char.isAlphanum, Bool.or_eq_true] at h
  rcases h with h | h
  · exact toNat_lt_of_isIdentifierStart (by rw [isIdentifierStart, h, Bool.true_or])
  · have hnine : c.val ≤ '9'.val := of_decide_eq_true (Bool.and_eq_true_iff.1 h).2
    exact Nat.lt_of_le_of_lt hnine (by decide)

theorem isWord_of_isIdentifierStart {c : Char} (h : isIdentifierStart c) : isWord c := by
  rw [isWord, if_pos (toNat_lt_of_isIdentifierStart h)]
  simp only [isIdentifierStart, Bool.or_eq_true, decide_eq_true_eq] at h
  rcases h with h | rfl
  · simp [Char.isAlphanum, h]
  · rfl

/-- The code points of the blank characters. -/
def blankCodes : List Nat :=
  [0x09, 0x0A, 0x0B, 0x0C, 0x0D, 0x20, 0x85, 0xA0, 0x1680] ++ (List.range 11).map (0x2000 + ·) ++
    [0x2028, 0x2029, 0x202F, 0x205F, 0x3000]

theorem toNat_mem_blankCodes {c : Char} (h : isBlank c) : c.toNat ∈ blankCodes := by
  simp only [isBlank, Bool.or_eq_true, Bool.and_eq_true, decide_eq_true_eq] at h
  simp only [blankCodes, List.range_succ, List.range_zero, List.map_append, List.map_cons,
    List.map_nil, List.mem_append, List.mem_cons, List.not_mem_nil]
  omega

theorem isWord_eq_false_of_isBlank {c : Char} (h : isBlank c) : isWord c = false := by
  have hall : ∀ n ∈ blankCodes, isWord (Char.ofNat n) = false := by decide +kernel
  rw [← Char.ofNat_toNat c]
  exact hall _ (toNat_mem_blankCodes h)

theorem isBlank_eq_false_of_isWord {c : Char} (h : isWord c) : isBlank c = false := by
  rw [← Bool.not_eq_true]
  intro hblank
  rw [isWord_eq_false_of_isBlank hblank] at h
  cases h

theorem notMem_of_blanks {blanks : List Char} (hblanks : ∀ c ∈ blanks, isBlank c) {c : Char}
    (hc : isBlank c = false) : c ∉ blanks := fun h => by
  rw [hblanks c h] at hc
  cases hc

theorem isIdentifierStart_eq_false {c : Char} (h : isWord c = false) :
    isIdentifierStart c = false := by
  rw [← Bool.not_eq_true] at h ⊢
  exact mt isWord_of_isIdentifierStart h

/-! ## Identifiers -/

/-- A text that is read as one identifier. -/
def IsIdentifier (cs : List Char) : Prop := takeIdentifier cs = some (cs, [])

instance (cs : List Char) : Decidable (IsIdentifier cs) :=
  inferInstanceAs (Decidable (takeIdentifier cs = some (cs, [])))

theorem isIdentifier_cons {c : Char} {cs : List Char} :
    IsIdentifier (c :: cs) ↔ isIdentifierStart c ∧ ∀ d ∈ cs, isWord d := by
  rw [IsIdentifier, takeIdentifier]
  split
  · rename_i hc
    simp [hc]
  · rename_i hc
    simp [hc]

theorem IsIdentifier.isWord_of_mem {cs : List Char} (h : IsIdentifier cs) {c : Char}
    (hc : c ∈ cs) : isWord c := by
  cases cs with
  | nil => cases hc
  | cons d ds =>
    obtain ⟨hd, hds⟩ := isIdentifier_cons.1 h
    rcases List.mem_cons.1 hc with rfl | hc
    · exact isWord_of_isIdentifierStart hd
    · exact hds c hc

theorem any_head?_identifier {p : Char → Bool} {name : List Char} (h : IsIdentifier name)
    (hp : ∀ c, isWord c → p c = false) (v : List Char) : (name ++ v).head?.any p = false := by
  cases name with
  | nil => cases h
  | cons c cs => exact hp c (h.isWord_of_mem List.mem_cons_self)

theorem takeIdentifier_append {name rest : List Char} (h : IsIdentifier name)
    (hrest : rest.head?.any isWord = false) :
    takeIdentifier (name ++ rest) = some (name, rest) := by
  cases name with
  | nil => simp [IsIdentifier, takeIdentifier] at h
  | cons c cs =>
    obtain ⟨hc, hcs⟩ := isIdentifier_cons.1 h
    have hnone : rest.takeWhile isWord = [] ∧ rest.dropWhile isWord = rest := by
      cases rest with
      | nil => simp
      | cons d ds => simp_all
    rw [List.cons_append, takeIdentifier, if_pos hc, List.takeWhile_append_of_pos hcs,
      List.dropWhile_append_of_pos hcs, hnone.1, hnone.2, List.append_nil]

theorem any_head?_dropWhile (p : Char → Bool) (cs : List Char) :
    (cs.dropWhile p).head?.any p = false := by
  induction cs with
  | nil => rfl
  | cons c cs ih =>
    rw [List.dropWhile_cons]
    split
    · exact ih
    · rename_i hc
      simpa using hc

theorem takeIdentifier_eq_some {cs name rest : List Char} (h : takeIdentifier cs = some (name, rest)) :
    IsIdentifier name ∧ rest.head?.any isWord = false ∧ cs = name ++ rest := by
  have hcs := (append_of_takeIdentifier h).symm
  cases cs with
  | nil => cases h
  | cons c cs =>
    rw [takeIdentifier] at h
    split at h
    · rename_i hc
      cases h
      refine ⟨isIdentifier_cons.2 ⟨hc, fun d hd => ?_⟩, any_head?_dropWhile isWord cs, hcs⟩
      exact List.mem_takeWhile_imp hd
    · cases h

theorem any_head?_append {p : Char → Bool} {u v : List Char} (hu : u.head?.any p = false)
    (hv : v.head?.any p = false) : (u ++ v).head?.any p = false := by
  cases u with
  | nil => exact hv
  | cons c u => exact hu

/-- What is outside words behind a text does not go into an identifier at its start. -/
theorem takeIdentifier_append_of_head {cs v : List Char} (hne : cs ≠ [])
    (hv : v.head?.any isWord = false) :
    takeIdentifier (cs ++ v) = (takeIdentifier cs).map fun p => (p.1, p.2 ++ v) := by
  cases hcs : takeIdentifier cs with
  | some p =>
    obtain ⟨hname, hrest, rfl⟩ := takeIdentifier_eq_some hcs
    rw [List.append_assoc, takeIdentifier_append hname (any_head?_append hrest hv)]
    rfl
  | none =>
    obtain ⟨c, cs, rfl⟩ := List.exists_cons_of_ne_nil hne
    rw [takeIdentifier] at hcs
    split at hcs
    · cases hcs
    · rename_i hc
      rw [List.cons_append, takeIdentifier, if_neg hc]
      rfl

end ChaiBind.Text
