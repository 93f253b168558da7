import Mathlib.Data.List.Lex

/-!
# The order of bytes

Texts in the order of their characters are in the order of their bytes in UTF-8
(`utf8Bytes_lt_of_lt`). A character of more bytes than another starts with a greater byte, and of
two with equally many the greater one has the greater byte where they first differ
(`utf8EncodeChar_append_lt`).
-/

namespace ChaiBind.Text

/-- The bytes of a text. -/
def utf8Bytes (text : List Char) : List UInt8 := text.flatMap String.utf8EncodeChar

section

variable {m n : Nat} {xs ys : List UInt8}

theorem ofNat_cons_lt_of_lt (h : m < n) (hn : n < 256) :
    UInt8.ofNat m :: xs < UInt8.ofNat n :: ys := by
  refine List.cons_lt_cons_iff.2 (.inl ?_)
  rw [UInt8.lt_iff_toNat_lt, UInt8.toNat_ofNat', UInt8.toNat_ofNat']
  omega

theorem ofNat_cons_lt_of_le (h : m ≤ n) (hn : n < 256) (hrest : m = n → xs < ys) :
    UInt8.ofNat m :: xs < UInt8.ofNat n :: ys := by
  rcases Nat.lt_or_eq_of_le h with hlt | rfl
  · exact ofNat_cons_lt_of_lt hlt hn
  · exact List.cons_lt_cons_iff.2 (.inr ⟨rfl, hrest rfl⟩)

end

/-- Whatever follows them, the bytes of a smaller character come first. The cases are the numbers of
bytes that the two have. -/
theorem utf8EncodeChar_append_lt {c d : Char} (h : c < d) (xs ys : List UInt8) :
    String.utf8EncodeChar c ++ xs < String.utf8EncodeChar d ++ ys := by
  have hlt : c.val.toNat < d.val.toNat := UInt32.lt_iff_toNat_lt.1 (Char.lt_def.1 h)
  have hvalid : d.val.toNat < 0x110000 := by
    have hd := d.valid
    simp only [UInt32.isValidChar, Nat.isValidChar] at hd
    omega
  unfold String.utf8EncodeChar
  generalize c.val.toNat = u at hlt
  generalize d.val.toNat = v at hlt hvalid
  dsimp only
  split_ifs <;> simp only [List.cons_append, List.nil_append]
  -- Characters have no fewer bytes than smaller ones.
  all_goals try omega
  -- One with more bytes has a greater first one; this also settles those of one byte.
  any_goals (apply ofNat_cons_lt_of_lt <;> omega)
  · exact ofNat_cons_lt_of_le (by omega) (by omega) fun _ =>
      ofNat_cons_lt_of_lt (by omega) (by omega)
  · exact ofNat_cons_lt_of_le (by omega) (by omega) fun _ =>
      ofNat_cons_lt_of_le (by omega) (by omega) fun _ =>
        ofNat_cons_lt_of_lt (by omega) (by omega)
  · exact ofNat_cons_lt_of_le (by omega) (by omega) fun _ =>
      ofNat_cons_lt_of_le (by omega) (by omega) fun _ =>
        ofNat_cons_lt_of_le (by omega) (by omega) fun _ =>
          ofNat_cons_lt_of_lt (by omega) (by omega)

/-- Texts in the order of their characters are in the order of their bytes. -/
theorem utf8Bytes_lt_of_lt {x y : List Char} (h : x < y) : utf8Bytes x < utf8Bytes y := by
  induction x generalizing y with
  | nil =>
    cases y with
    | nil => exact absurd h (List.not_lt_nil [])
    | cons d ds =>
      have hne : utf8Bytes (d :: ds) ≠ [] := fun hnil =>
        String.utf8EncodeChar_ne_nil (List.append_eq_nil_iff.1 hnil).1
      obtain ⟨b, bs, hbytes⟩ := List.exists_cons_of_ne_nil hne
      rw [hbytes]
      exact List.nil_lt_cons b bs
  | cons c cs ih =>
    cases y with
    | nil => exact absurd h (List.not_lt_nil _)
    | cons d ds =>
      rcases List.cons_lt_cons_iff.1 h with hlt | ⟨rfl, hrest⟩
      · exact utf8EncodeChar_append_lt hlt _ _
      · exact List.append_left_lt (ih hrest)

end ChaiBind.Text
