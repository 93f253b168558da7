import ChaiBind.Text.Utf8
import Mathlib.Data.List.Basic

/-!
# Reading what was written

A text that is written as UTF-8 is read back as it was (`decodeLossy_toUTF8`). The bytes of one
character are those of `String.utf8EncodeChar`, one to four of them; reading takes them one by one,
and where it stands in between says which bytes may follow.
-/

namespace ChaiBind.Text

/-! ## The bytes of a text -/

theorem toList_loop_eq (bytes : ByteArray) (i : Nat) (read : List UInt8) :
    ByteArray.toList.loop bytes i read = read.reverse ++ bytes.data.toList.drop i := by
  fun_induction ByteArray.toList.loop bytes i read with
  | case1 i read h ih =>
    have hi : i < bytes.data.toList.length := by simpa using h
    rw [ih, List.drop_eq_getElem_cons hi]
    simp [ByteArray.get!, h]
  | case2 i read h =>
    rw [List.drop_eq_nil_of_le (by simpa using Nat.le_of_not_lt h)]
    simp

theorem toList_toUTF8 (text : String) :
    text.toUTF8.toList = text.toList.flatMap String.utf8EncodeChar := by
  have hdata : text.toUTF8.toList = text.toUTF8.data.toList := by
    rw [ByteArray.toList, toList_loop_eq]
    rfl
  rw [hdata, String.toUTF8_eq_toByteArray, ← String.utf8Encode_toList, List.utf8Encode,
    List.toList_data_toByteArray]

/-! ## One character -/

namespace Decoding

theorem first_of_lt {b : Nat} (h : b < 0x80) : first b = ([Char.ofNat b], .start) := if_pos h

theorem first_of_two {b : Nat} (h : 0xC2 ≤ b ∧ b ≤ 0xDF) :
    first b = ([], .inside 1 0x80 0xBF (b - 0xC0)) := by
  rw [first, if_neg (by omega), if_pos (by simpa using h)]

/-- Among encodings of three bytes some would be those of fewer, and some of no character. -/
theorem first_of_three {b : Nat} (h : 0xE0 ≤ b ∧ b ≤ 0xEF) :
    first b = ([], .inside 2 (if b = 0xE0 then 0xA0 else 0x80) (if b = 0xED then 0x9F else 0xBF)
      (b - 0xE0)) := by
  rw [first, if_neg (by omega), if_neg (by simp; omega)]
  by_cases hlow : b = 0xE0
  · subst hlow
    rfl
  · by_cases hhigh : b = 0xED
    · subst hhigh
      rfl
    · rw [if_neg hlow, if_neg hhigh, if_pos (by simp; omega), if_neg hlow, if_neg hhigh]

/-- Among encodings of four bytes some would be those of fewer, and some lie beyond the last
character. -/
theorem first_of_four {b : Nat} (h : 0xF0 ≤ b ∧ b ≤ 0xF4) :
    first b = ([], .inside 3 (if b = 0xF0 then 0x90 else 0x80) (if b = 0xF4 then 0x8F else 0xBF)
      (b - 0xF0)) := by
  rcases (by omega : b = 0xF0 ∨ b = 0xF1 ∨ b = 0xF2 ∨ b = 0xF3 ∨ b = 0xF4) with
    rfl | rfl | rfl | rfl | rfl <;> rfl

end Decoding

/-- The bits of a byte that follows another. -/
theorem toNat_ofNat_tail (n : Nat) : (UInt8.ofNat (n % 0x40 + 0x80)).toNat = n % 0x40 + 0x80 := by
  rw [UInt8.toNat_ofNat']
  omega

theorem decodeFrom_inside {left low high value n : Nat} (hlow : low ≤ n % 0x40 + 0x80)
    (hhigh : n % 0x40 + 0x80 ≤ high) (bytes : List UInt8) :
    decodeFrom (.inside left low high value) (UInt8.ofNat (n % 0x40 + 0x80) :: bytes) =
      if left ≤ 1 then Char.ofNat (value * 64 + n % 0x40) :: decodeFrom .start bytes
      else decodeFrom (.inside (left - 1) 0x80 0xBF (value * 64 + n % 0x40)) bytes := by
  rw [decodeFrom, toNat_ofNat_tail, Decoding.step, if_pos (by simp [hlow, hhigh])]
  dsimp only
  rw [Nat.add_sub_cancel]
  split <;> rfl

theorem decodeFrom_first {n b : Nat} {d : Decoding} (hb : n % 256 = b)
    (h : Decoding.first b = ([], d)) (bytes : List UInt8) :
    decodeFrom .start (UInt8.ofNat n :: bytes) = decodeFrom d bytes := by
  rw [decodeFrom, UInt8.toNat_ofNat', hb, Decoding.step, h]
  rfl

/-- A character comes back from its bytes. The cases are one byte, two, three and four. -/
theorem decodeFrom_utf8EncodeChar (c : Char) (bytes : List UInt8) :
    decodeFrom .start (String.utf8EncodeChar c ++ bytes) = c :: decodeFrom .start bytes := by
  have hvalid : c.val.toNat < 0xD800 ∨ 0xDFFF < c.val.toNat ∧ c.val.toNat < 0x110000 := c.valid
  have hchar : Char.ofNat c.val.toNat = c := Char.ofNat_toNat c
  unfold String.utf8EncodeChar
  generalize c.val.toNat = v at hvalid hchar ⊢
  subst hchar
  dsimp only
  split
  · have hone : (UInt8.ofNat v).toNat = v := by
      rw [UInt8.toNat_ofNat']
      omega
    rw [List.singleton_append, decodeFrom, hone, Decoding.step, Decoding.first_of_lt (by omega)]
    rfl
  · split
    · have hfirst := Decoding.first_of_two (b := v / 64 + 0xC0) (by omega)
      rw [List.cons_append, decodeFrom_first (by omega) hfirst, List.singleton_append,
        decodeFrom_inside (by omega) (by omega), if_pos (by omega)]
      have hvalue : (v / 64 + 0xC0 - 0xC0) * 64 + v % 0x40 = v := by omega
      rw [hvalue]
    · split
      · have hfirst := Decoding.first_of_three (b := v / 4096 + 0xE0) (by omega)
        rw [List.cons_append, decodeFrom_first (by omega) hfirst, List.cons_append,
          decodeFrom_inside (by split <;> omega) (by split <;> omega), if_neg (by omega),
          List.singleton_append, decodeFrom_inside (by omega) (by omega), if_pos (by omega)]
        have hvalue : ((v / 4096 + 0xE0 - 0xE0) * 64 + v / 64 % 0x40) * 64 + v % 0x40 = v := by
          omega
        rw [hvalue]
      · have hfirst := Decoding.first_of_four (b := v / 262144 + 0xF0) (by omega)
        rw [List.cons_append, decodeFrom_first (by omega) hfirst, List.cons_append,
          decodeFrom_inside (by split <;> omega) (by split <;> omega), if_neg (by omega),
          List.cons_append, decodeFrom_inside (by omega) (by omega), if_neg (by omega),
          List.singleton_append, decodeFrom_inside (by omega) (by omega), if_pos (by omega)]
        have hvalue : (((v / 262144 + 0xF0 - 0xF0) * 64 + v / 4096 % 0x40) * 64 +
            v / 64 % 0x40) * 64 + v % 0x40 = v := by omega
        rw [hvalue]

/-- Text comes back from its bytes. -/
theorem decodeLossy_toUTF8 (text : String) : decodeLossy text.toUTF8 = text := by
  have hdecode : ∀ cs : List Char, decodeFrom .start (cs.flatMap String.utf8EncodeChar) = cs := by
    intro cs
    induction cs with
    | nil => rfl
    | cons c cs ih => rw [List.flatMap_cons, decodeFrom_utf8EncodeChar, ih]
  rw [decodeLossy, toList_toUTF8, hdecode, String.ofList_toList]

end ChaiBind.Text
