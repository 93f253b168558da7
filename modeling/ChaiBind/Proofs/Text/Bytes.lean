import ChaiBind.Proofs.Text.ByteOrder
import ChaiBind.Proofs.Text.Trivia

/-!
# Bytes of a text

A text is read byte by byte at positions that may lie inside a character. An ASCII character is its
only byte, and the bytes of another character are none in ASCII (`exists_byteAt?_wide`), so that a
byte in ASCII tells which character stands there (`byteAt?_append_eq_some_iff`). A slice is taken
between positions that are in order and between characters, and not otherwise (`slice?`).

* `any_byteAt?_before`: the byte before a position, as far as letters and digits go.
* `exists_of_offsetOf?`: the first place of a pattern.
-/

namespace ChaiBind.Text

theorem byteLength_append_singleton (u : List Char) (c : Char) :
    byteLength (u ++ [c]) = byteLength u + c.utf8Size := by
  rw [byteLength_append, byteLength_cons, byteLength_nil, Nat.add_zero]

theorem length_utf8Bytes (text : List Char) : (utf8Bytes text).length = byteLength text := by
  induction text with
  | nil => rfl
  | cons c cs ih =>
    rw [utf8Bytes, List.flatMap_cons, List.length_append, String.length_utf8EncodeChar, byteLength_cons,
      ← ih, utf8Bytes]

theorem utf8Bytes_append (u v : List Char) : utf8Bytes (u ++ v) = utf8Bytes u ++ utf8Bytes v :=
  List.flatMap_append

/-- A byte of a text, as the character with its number. -/
def byteAt? (text : List Char) (i : Nat) : Option Char := (utf8Bytes text)[i]?.map Char.ofUInt8

theorem byteAt?_append_add (u v : List Char) (k : Nat) :
    byteAt? (u ++ v) (byteLength u + k) = byteAt? v k := by
  rw [byteAt?, utf8Bytes_append, ← length_utf8Bytes, List.getElem?_append_right (Nat.le_add_right _ _),
    Nat.add_sub_cancel_left, byteAt?]

theorem byteAt?_append (u v : List Char) : byteAt? (u ++ v) (byteLength u) = byteAt? v 0 :=
  byteAt?_append_add u v 0

theorem lt_of_byteAt? {text : List Char} {i : Nat} {b : Char} (h : byteAt? text i = some b) :
    i < byteLength text := by
  obtain ⟨byte, hbyte, -⟩ := Option.map_eq_some_iff.1 h
  rw [← length_utf8Bytes]
  exact (List.getElem?_eq_some_iff.1 hbyte).1

theorem exists_byteAt? {text : List Char} {i : Nat} (h : i < byteLength text) :
    ∃ b, byteAt? text i = some b := by
  rw [← length_utf8Bytes] at h
  exact ⟨_, by rw [byteAt?, List.getElem?_eq_getElem h, Option.map_some]⟩

theorem byteAt?_of_le {text : List Char} {i : Nat} (h : byteLength text ≤ i) :
    byteAt? text i = none := by
  rw [byteAt?, List.getElem?_eq_none (by rwa [length_utf8Bytes])]
  rfl

theorem byteAt?_cons {c : Char} {k : Nat} (hk : k < c.utf8Size) (v : List Char) :
    byteAt? (c :: v) k = (String.utf8EncodeChar c)[k]?.map Char.ofUInt8 := by
  rw [byteAt?, utf8Bytes, List.flatMap_cons,
    List.getElem?_append_left (by rwa [String.length_utf8EncodeChar])]

/-! ## Bytes and characters -/

/-- Every byte of a text is one of a character. -/
theorem exists_char_of_lt {text : List Char} {i : Nat} (h : i < byteLength text) :
    ∃ u c v, text = u ++ c :: v ∧ byteLength u ≤ i ∧ i < byteLength (u ++ [c]) := by
  induction text generalizing i with
  | nil => cases h
  | cons d text ih =>
    rw [byteLength_cons] at h
    rcases Nat.lt_or_ge i d.utf8Size with hlt | hge
    · exact ⟨[], d, text, rfl, Nat.zero_le i, hlt⟩
    · obtain ⟨u, c, v, rfl, hle, hlt⟩ := ih (i := i - d.utf8Size) (by omega)
      refine ⟨d :: u, c, v, rfl, ?_, ?_⟩
      · rw [byteLength_cons]
        omega
      · rw [List.cons_append, byteLength_cons]
        omega

/-- A character that ASCII has. -/
def IsAscii (c : Char) : Prop := c.toNat < 0x80

instance (c : Char) : Decidable (IsAscii c) := inferInstanceAs (Decidable (c.toNat < 0x80))

theorem utf8Size_eq_one_iff {c : Char} : c.utf8Size = 1 ↔ IsAscii c := by
  rw [Char.utf8Size_eq_one_iff, UInt32.le_iff_toNat_le, IsAscii, Char.toNat]
  exact Nat.lt_succ_iff.symm

/-- An ASCII character is its only byte. -/
theorem byteAt?_ascii {c : Char} (h : IsAscii c) (v : List Char) : byteAt? (c :: v) 0 = some c := by
  have hone := utf8Size_eq_one_iff.2 h
  rw [byteAt?_cons c.utf8Size_pos, String.utf8EncodeChar_eq_singleton hone]
  refine congrArg some (Char.toNat_inj.1 ?_)
  show c.toNat % 256 = c.toNat
  exact Nat.mod_eq_of_lt (Nat.lt_trans h (by decide))

theorem byteAt?_append_ascii {c : Char} (h : IsAscii c) (u v : List Char) :
    byteAt? (u ++ c :: v) (byteLength u) = some c := by
  rw [byteAt?_append, byteAt?_ascii h]

theorem toNat_le_of_mem_utf8EncodeChar {c : Char} (h : ¬ IsAscii c) {b : UInt8}
    (hb : b ∈ String.utf8EncodeChar c) : 0x80 ≤ b.toNat := by
  have hwide : ¬ c.val.toNat ≤ 0x7F := fun hle => h (Nat.lt_succ_of_le hle)
  unfold String.utf8EncodeChar at hb
  generalize c.val.toNat = v at hb hwide
  dsimp only at hb
  rw [if_neg hwide] at hb
  split_ifs at hb <;> simp only [List.mem_cons, List.not_mem_nil, or_false] at hb
  all_goals
    rcases hb with rfl | rfl | rfl | rfl <;> rw [UInt8.toNat_ofNat'] <;> omega

/-- A byte of another character is none in ASCII. -/
theorem exists_byteAt?_wide {c : Char} (h : ¬ IsAscii c) {k : Nat} (hk : k < c.utf8Size)
    (v : List Char) : ∃ b, byteAt? (c :: v) k = some b ∧ ¬ IsAscii b := by
  have hlt : k < (String.utf8EncodeChar c).length := by rwa [String.length_utf8EncodeChar]
  refine ⟨Char.ofUInt8 (String.utf8EncodeChar c)[k], ?_, ?_⟩
  · rw [byteAt?_cons hk, List.getElem?_eq_getElem hlt]
    rfl
  · have hle := toNat_le_of_mem_utf8EncodeChar h (List.getElem_mem hlt)
    exact Nat.not_lt.2 hle

/-- A byte in ASCII is the character that stands there. -/
theorem byteAt?_append_eq_some_iff {d : Char} (hd : IsAscii d) (u v : List Char) :
    byteAt? (u ++ v) (byteLength u) = some d ↔ v.head? = some d := by
  rw [byteAt?_append]
  cases v with
  | nil => simp [byteAt?, utf8Bytes]
  | cons c v =>
    by_cases hc : IsAscii c
    · rw [byteAt?_ascii hc, List.head?_cons]
    · obtain ⟨b, hb, hwide⟩ := exists_byteAt?_wide hc c.utf8Size_pos v
      rw [hb, List.head?_cons, Option.some_inj, Option.some_inj]
      refine iff_of_false ?_ ?_
      · rintro rfl
        exact hwide hd
      · rintro rfl
        exact hc hd

/-- A letter or digit at the end of a text. -/
def endsWord (cs : List Char) : Bool := cs.getLast?.any Char.isAlphanum

@[simp] theorem endsWord_append_singleton (u : List Char) (c : Char) :
    endsWord (u ++ [c]) = c.isAlphanum := by
  simp [endsWord]

/-- The byte before a position is a letter or digit if and only if the character before it is. -/
theorem any_byteAt?_before {u : List Char} (hu : u ≠ []) (v : List Char) :
    (byteAt? (u ++ v) (byteLength u - 1)).any Char.isAlphanum = endsWord u := by
  obtain ⟨u, c, rfl⟩ := u.eq_nil_or_concat'.resolve_left hu
  have hpos := c.utf8Size_pos
  have hlast : byteLength (u ++ [c]) - 1 = byteLength u + (c.utf8Size - 1) := by
    rw [byteLength_append_singleton]
    omega
  rw [hlast, List.append_assoc, byteAt?_append_add, List.singleton_append, endsWord_append_singleton]
  by_cases hc : IsAscii c
  · rw [utf8Size_eq_one_iff.2 hc, Nat.sub_self, byteAt?_ascii hc]
    rfl
  · obtain ⟨b, hb, hwide⟩ := exists_byteAt?_wide hc (k := c.utf8Size - 1) (by omega) v
    have hnone : ∀ {d : Char}, ¬ IsAscii d → d.isAlphanum = false := fun hd =>
      Bool.eq_false_iff.2 (mt toNat_lt_of_isAlphanum hd)
    rw [hb, Option.any_some, hnone hwide, hnone hc]

/-! ## Slices -/

theorem isBoundary_byteLength (u v : List Char) : IsBoundary (u ++ v) (byteLength u) := ⟨u, v, rfl, rfl⟩

theorem IsBoundary.le {text : List Char} {n : Nat} (h : IsBoundary text n) : n ≤ byteLength text := by
  obtain ⟨u, v, rfl, rfl⟩ := h
  rw [byteLength_append]
  exact Nat.le_add_right _ _

theorem isBoundary_iff {text : List Char} {n : Nat} :
    IsBoundary text n ↔ byteLength (takeBytes n text) = n := by
  constructor
  · rintro ⟨u, v, rfl, rfl⟩
    rw [takeBytes_byteLength]
  · intro h
    obtain ⟨v, hv⟩ := takeBytes_isPrefix n text
    exact ⟨takeBytes n text, v, hv.symm, h⟩

instance (text : List Char) (n : Nat) : Decidable (IsBoundary text n) :=
  decidable_of_iff _ isBoundary_iff.symm

/-- The text between two positions, if they are in order, within the text and between characters. -/
def slice? (text : List Char) (start stop : Nat) : Option (List Char) :=
  if start ≤ stop ∧ stop ≤ byteLength text ∧ IsBoundary text start ∧ IsBoundary text stop then
    some (slice text start stop)
  else none

theorem slice?_eq {text u w v : List Char} (h : text = u ++ w ++ v) :
    slice? text (byteLength u) (byteLength (u ++ w)) = some w := by
  subst h
  have hstop := isBoundary_byteLength (u ++ w) v
  have hstart : IsBoundary (u ++ w ++ v) (byteLength u) :=
    (List.append_assoc u w v).symm ▸ isBoundary_byteLength u (w ++ v)
  have hle : byteLength u ≤ byteLength (u ++ w) := by
    rw [byteLength_append]
    exact Nat.le_add_right _ _
  rw [slice?, if_pos ⟨hle, hstop.le, hstart, hstop⟩, List.append_assoc, slice_between]

/-- The slice up to the end of the text. -/
theorem slice?_end {text u w : List Char} (h : text = u ++ w) :
    slice? text (byteLength u) (byteLength text) = some w := by
  have hslice := slice?_eq (h.trans (List.append_nil _).symm)
  rwa [← h] at hslice

/-! ## Places of a pattern -/

/-- The offset of the first place where a pattern stands. -/
def offsetOf? (pattern : List Char) : List Char → Option Nat
  | [] => none
  | c :: cs =>
    if pattern.isPrefixOf (c :: cs) then some 0 else (offsetOf? pattern cs).map (c.utf8Size + ·)

section

variable {pattern cs : List Char} (hpattern : pattern ≠ [])
include hpattern

theorem not_isInfix_of_offsetOf?_eq_none (h : offsetOf? pattern cs = none) : ¬ pattern <:+: cs := by
  induction cs with
  | nil => rwa [List.infix_nil]
  | cons c cs ih =>
    rw [offsetOf?] at h
    split at h
    · cases h
    · rename_i hstarts
      rw [List.isPrefixOf_iff_prefix] at hstarts
      rw [List.infix_cons_iff, not_or]
      exact ⟨hstarts, ih (Option.map_eq_none_iff.1 h)⟩

/-- A pattern that is found does not stand in front of its place. -/
theorem exists_of_offsetOf? {n : Nat} (h : offsetOf? pattern cs = some n) :
    ∃ front behind, cs = front ++ pattern ++ behind ∧ n = byteLength front ∧
      ¬ pattern <:+: front := by
  induction cs generalizing n with
  | nil => cases h
  | cons c cs ih =>
    rw [offsetOf?] at h
    split at h
    · rename_i hstarts
      obtain ⟨behind, hcs⟩ := List.isPrefixOf_iff_prefix.1 hstarts
      exact ⟨[], behind, hcs.symm, (Option.some.inj h).symm, by rwa [List.infix_nil]⟩
    · rename_i hstarts
      obtain ⟨m, hm, rfl⟩ := Option.map_eq_some_iff.1 h
      obtain ⟨front, behind, rfl, rfl, hfront⟩ := ih hm
      refine ⟨c :: front, behind, rfl, rfl, ?_⟩
      rw [List.infix_cons_iff, not_or]
      refine ⟨fun hcs => hstarts (List.isPrefixOf_iff_prefix.2 ?_), hfront⟩
      rw [List.append_assoc, ← List.cons_append]
      exact hcs.trans (List.prefix_append _ _)

end

end ChaiBind.Text
