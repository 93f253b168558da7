import ChaiBind.Proofs.Text.LineEndings
import ChaiBind.Proofs.Text.Places
import Mathlib.Order.Monotone.Basic

/-!
# Places with other line endings

With a carriage return before each newline an offset moves by one byte for each newline
before it (`moved`). Offsets keep their order (`strictMono_moved`), and what stands at one
has the same line and column (`place_withReturns`).

* `slice_withReturns`: a slice of the text moves with its ends.
-/

namespace ChaiBind.Text

/-- Where an offset of a text goes with a carriage return before each newline. -/
def moved (cs : List Char) (offset : Nat) : Nat := offset + (takeBytes offset cs).count '\n'

theorem count_takeBytes_le {m n : Nat} (h : m ≤ n) (cs : List Char) (c : Char) :
    (takeBytes m cs).count c ≤ (takeBytes n cs).count c := by
  induction cs generalizing m n with
  | nil => exact Nat.le_refl _
  | cons d cs ih =>
    rw [takeBytes, takeBytes]
    by_cases hd : d.utf8Size ≤ m
    · rw [if_pos hd, if_pos (Nat.le_trans hd h), List.count_cons, List.count_cons]
      exact Nat.add_le_add_right (ih (Nat.sub_le_sub_right h _)) _
    · rw [if_neg hd]
      exact Nat.zero_le _

theorem strictMono_moved (cs : List Char) : StrictMono (moved cs) := fun _ _ h =>
  Nat.add_lt_add_of_lt_of_le h (count_takeBytes_le (Nat.le_of_lt h) cs '\n')

theorem moved_append (u v : List Char) (offset : Nat) :
    moved (u ++ v) (byteLength u + offset) = byteLength (withReturns u) + moved v offset := by
  rw [moved, takeBytes_append_add, List.count_append, byteLength_withReturns, moved]
  omega

@[simp] theorem moved_zero (cs : List Char) : moved cs 0 = 0 := by
  rw [moved, takeBytes_zero]
  rfl

theorem moved_byteLength (u v : List Char) :
    moved (u ++ v) (byteLength u) = byteLength (withReturns u) := by
  have h := moved_append u v 0
  rwa [Nat.add_zero, moved_zero, Nat.add_zero] at h

/-! ## Lines and columns -/

namespace Location

/-- The line and the column. -/
def place (l : Location) : Nat × Nat := (l.line, l.column)

theorem place_advance_congr {l l' : Location} (h : l'.place = l.place) (c : Char) :
    (l'.advance c).place = (l.advance c).place := by
  obtain ⟨hline, hcolumn⟩ := Prod.mk.inj h
  rw [advance, advance]
  split
  · rw [place, place, hline]
  · rw [place, place, hline, hcolumn]

theorem place_foldl_withReturns {l l' : Location} (h : l'.place = l.place) (cs : List Char) :
    ((withReturns cs).foldl advance l').place = (cs.foldl advance l).place := by
  induction cs generalizing l l' with
  | nil => exact h
  | cons c cs ih =>
    by_cases hc : c = '\n'
    · subst hc
      refine ih ?_
      -- The column of the carriage return is lost at the newline.
      obtain ⟨hline, -⟩ := Prod.mk.inj h
      exact congrArg (fun line => (line + 1, 1)) hline
    · rw [withReturns_cons hc]
      exact ih (place_advance_congr h c)

end Location

theorem place_locate_withReturns (u v : List Char) :
    (locate (withReturns (u ++ v)) (moved (u ++ v) (byteLength u))).place =
      (locate (u ++ v) (byteLength u)).place := by
  rw [moved_byteLength, withReturns_append, locate_append, locate_append]
  exact Location.place_foldl_withReturns rfl u

/-! ## Slices -/

theorem slice_withReturns {x y u v : List Char} (hle : byteLength x ≤ byteLength u)
    (h : x ++ y = u ++ v) :
    slice (withReturns (x ++ y)) (moved (x ++ y) (byteLength x)) (moved (x ++ y) (byteLength u)) =
      withReturns (slice (x ++ y) (byteLength x) (byteLength u)) := by
  obtain ⟨t, rfl⟩ := isPrefix_of_byteLength_le hle h
  rw [List.append_assoc, List.append_cancel_left_eq] at h
  subst h
  rw [slice_between, ← List.append_assoc, moved_byteLength, List.append_assoc, moved_byteLength,
    withReturns_append, withReturns_append t, withReturns_append x, slice_between]

end ChaiBind.Text
