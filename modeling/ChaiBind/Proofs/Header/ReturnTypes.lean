import ChaiBind.Header.Signature
import ChaiBind.Proofs.Text.Pieces

/-!
# What a return type keeps

The return type of a signature is what comes before the name, less attributes
and specifiers. Everything else stays in it: a parenthesis that stands outside
attributes ends up in the return type, which then is no type
(`isReturnType_eq_false`).

* `mem_blankAttributes`: characters after a text that closes its attributes stay.
* `mem_returnType`: what stays next to attributes stays next to specifiers.
-/

namespace ChaiBind.Header

open Text

/-! ## Attributes -/

/-- After every pair of brackets that opens an attribute a closing bracket follows. -/
def ClosesAttributes : List Char → Prop
  | [] => True
  | c :: cs => (c = '[' → cs.head? = some '[' → ']' ∈ cs) ∧ ClosesAttributes cs

instance decidableClosesAttributes : DecidablePred ClosesAttributes
  | [] => isTrue trivial
  | c :: cs =>
    have := decidableClosesAttributes cs
    inferInstanceAs (Decidable ((c = '[' → cs.head? = some '[' → ']' ∈ cs) ∧ ClosesAttributes cs))

theorem closesAttributes_of_notMem {cs : List Char} (h : '[' ∉ cs) : ClosesAttributes cs := by
  induction cs with
  | nil => trivial
  | cons c cs ih =>
    rw [List.mem_cons, not_or] at h
    exact ⟨fun e => absurd e.symm h.1, ih h.2⟩

theorem ClosesAttributes.append {cs ds : List Char} (h : ClosesAttributes cs) (hd : '[' ∉ ds) :
    ClosesAttributes (cs ++ ds) := by
  induction cs with
  | nil => exact closesAttributes_of_notMem hd
  | cons c cs ih =>
    refine ⟨fun hc hhead => ?_, ih h.2⟩
    cases cs with
    | nil => exact absurd (List.mem_of_head? hhead) hd
    | cons d ds => exact List.mem_append_left _ (h.1 hc hhead)

theorem eq_of_afterAttribute? {cs rest : List Char} (h : afterAttribute? cs = some rest) :
    ∃ w, ']' ∉ w ∧ cs = '[' :: '[' :: (w ++ ']' :: ']' :: rest) := by
  unfold afterAttribute? at h
  split at h
  · rename_i cs
    split at h
    · rename_i hdrop
      cases h
      refine ⟨cs.takeWhile (· ≠ ']'), fun hm => ?_, ?_⟩
      · simpa using List.mem_takeWhile_imp hm
      · rw [← hdrop, List.takeWhile_append_dropWhile]
    · cases h
  · cases h

theorem isSuffix_of_afterAttribute? {cs rest : List Char} (h : afterAttribute? cs = some rest) :
    rest <:+ cs := by
  obtain ⟨w, -, rfl⟩ := eq_of_afterAttribute? h
  exact ⟨'[' :: '[' :: (w ++ [']', ']']), by simp⟩

theorem length_lt_of_afterAttribute? {cs rest : List Char} (h : afterAttribute? cs = some rest) :
    rest.length < cs.length := by
  obtain ⟨w, -, rfl⟩ := eq_of_afterAttribute? h
  simp only [List.length_cons, List.length_append]
  omega

theorem afterAttribute?_of_head?_ne {cs : List Char} (h : cs.head? ≠ some '[') :
    afterAttribute? cs = none := by
  rw [Option.eq_none_iff_forall_ne_some]
  intro rest hrest
  obtain ⟨w, -, rfl⟩ := eq_of_afterAttribute? hrest
  exact h rfl

/-- A start of a text without some character comes before that character. -/
theorem exists_of_append_cons_eq {w rest u x : List Char} {c : Char} (hc : c ∉ w)
    (h : u ++ c :: x = w ++ rest) : ∃ t, u = w ++ t ∧ rest = t ++ c :: x := by
  rcases List.append_eq_append_iff.1 h with ⟨t, hw, ht⟩ | ⟨t, hu, ht⟩
  · cases t with
    | nil => exact ⟨[], by rw [hw, List.append_nil, List.append_nil], ht.symm⟩
    | cons d t =>
      obtain ⟨rfl, -⟩ := List.cons.inj ht
      exact absurd (hw ▸ List.mem_append_right u List.mem_cons_self) hc
  · exact ⟨t, hu, ht⟩

/-- An attribute that starts in a text that closes its attributes ends there. -/
theorem length_le_of_afterAttribute? {u x rest : List Char} {c : Char} (hu : ClosesAttributes u)
    (hopen : c ≠ '[') (hclose : c ≠ ']') (h : afterAttribute? (u ++ c :: x) = some rest) :
    (c :: x).length ≤ rest.length := by
  obtain ⟨w, hw, hsplit⟩ := eq_of_afterAttribute? h
  obtain ⟨u, rfl, hrest⟩ := exists_of_append_cons_eq (w := ['[', '[']) (by simp [hopen]) hsplit
  have hmem : ']' ∈ u := by simpa using hu.1 rfl rfl
  -- The closing bracket cannot stand among what the attribute says, so this ends before it.
  rcases List.append_eq_append_iff.1 hrest with ⟨t, rfl, ht⟩ | ⟨t, rfl, -⟩
  · obtain ⟨t, -, rfl⟩ := exists_of_append_cons_eq (w := [']', ']']) (by simp [hclose]) ht.symm
    simp
  · exact absurd (List.mem_append_left t hmem) hw

theorem mem_blankAttributesFrom {u : List Char} (hu : ClosesAttributes u) {c : Char}
    (hopen : c ≠ '[') (hclose : c ≠ ']') (x : List Char) {skip : Nat} (hskip : skip ≤ u.length) :
    c ∈ blankAttributesFrom skip (u ++ c :: x) := by
  induction u generalizing skip with
  | nil =>
    obtain rfl : skip = 0 := Nat.le_zero.1 hskip
    have hnone : afterAttribute? (c :: x) = none :=
      afterAttribute?_of_head?_ne fun h => hopen (Option.some.inj h)
    rw [List.nil_append, blankAttributesFrom, hnone]
    exact List.mem_cons_self
  | cons a u ih =>
    rw [List.cons_append]
    cases skip with
    | succ n =>
      rw [blankAttributesFrom]
      exact ih hu.2 (Nat.le_of_succ_le_succ hskip)
    | zero =>
      rw [blankAttributesFrom]
      cases h : afterAttribute? (a :: (u ++ c :: x)) with
      | none => exact List.mem_cons_of_mem a (ih hu.2 (Nat.zero_le _))
      | some rest =>
        have hle := length_le_of_afterAttribute? hu hopen hclose h
        refine List.mem_cons_of_mem ' ' (ih hu.2 ?_)
        rw [List.length_append]
        omega

theorem mem_blankAttributes {u : List Char} (hu : ClosesAttributes u) {c : Char}
    (hopen : c ≠ '[') (hclose : c ≠ ']') (x : List Char) : c ∈ blankAttributes (u ++ c :: x) :=
  mem_blankAttributesFrom hu hopen hclose x (Nat.zero_le _)

/-! ## Words -/

theorem exists_mem_words {c : Char} {cs : List Char} (h : c ∈ cs) (hc : isBlank c = false) :
    ∃ w ∈ words cs, c ∈ w := by
  obtain ⟨w, hw, hcw⟩ := exists_mem_pieces h hc
  exact ⟨w, List.mem_filter.2 ⟨hw, by simpa using List.ne_nil_of_mem hcw⟩, hcw⟩

/-- What no specifier holds stays in the return type. -/
theorem Signature.mem_returnType {s : Signature} {c : Char}
    (h : c ∈ blankAttributes s.before) (hblank : isBlank c = false)
    (hspecifiers : ∀ w ∈ specifiers, c ∉ w) : c ∈ s.returnType := by
  obtain ⟨w, hw, hc⟩ := exists_mem_words h hblank
  refine mem_intercalate (List.mem_filter.2 ⟨hw, ?_⟩) hc
  rw [Bool.not_eq_true', ← Bool.not_eq_true, List.contains_iff_mem]
  exact fun hm => hspecifiers w hm hc

/-! ## Parentheses and quotes -/

theorem isReturnType_eq_false_of_mem {c : Char} (hc : isTypeChar c = false) {cs : List Char}
    (h : c ∈ cs) (hstart : isIdentifierStart c = false) : isReturnType cs = false := by
  cases cs with
  | nil => cases h
  | cons d ds =>
    rw [isReturnType, Bool.and_eq_false_iff]
    rcases List.mem_cons.1 h with rfl | h
    · exact .inl hstart
    · exact .inr (List.all_eq_false.2 ⟨c, h, by simp [hc]⟩)

/-- What comes before the name has a character outside attributes that no type and no specifier
has. -/
theorem Signature.isReturnType_eq_false_of_append {s : Signature} {u : List Char} {c : Char}
    (hc : c = '(' ∨ c = '"') (hu : ClosesAttributes u) (h : u ++ [c] <+: s.before) :
    isReturnType s.returnType = false := by
  obtain ⟨x, hx⟩ := h
  have hmem : c ∈ blankAttributes s.before := by
    rw [← hx, List.append_assoc]
    rcases hc with rfl | rfl <;> exact mem_blankAttributes hu (by decide) (by decide) x
  rcases hc with rfl | rfl <;>
    exact isReturnType_eq_false_of_mem (by decide) (s.mem_returnType hmem (by decide) (by decide))
      (by decide)

/-- What comes before the name has an open parenthesis outside attributes. -/
theorem Signature.isReturnType_eq_false {s : Signature} {u : List Char}
    (hu : ClosesAttributes u) (h : u ++ ['('] <+: s.before) :
    isReturnType s.returnType = false :=
  isReturnType_eq_false_of_append (.inl rfl) hu h

end ChaiBind.Header
