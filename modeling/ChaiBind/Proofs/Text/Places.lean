import ChaiBind.Text.Location

/-!
# Places after a text

The location at the end of the first part of a text counts the bytes and the
newlines of that part, whatever follows (`offset_locate_append`,
`line_locate_append`). A slice that lies in one part of a text is a slice of that part
(`slice_append_of_le`, `slice_append_add`).
-/

namespace ChaiBind.Text

namespace Location

theorem offset_foldl_advance (l : Location) (cs : List Char) :
    (cs.foldl advance l).offset = l.offset + byteLength cs := by
  induction cs generalizing l with
  | nil => rfl
  | cons c cs ih => rw [List.foldl_cons, ih, offset_advance, byteLength_cons, Nat.add_assoc]

theorem line_foldl_advance (l : Location) (cs : List Char) :
    (cs.foldl advance l).line = l.line + cs.count '\n' := by
  induction cs generalizing l with
  | nil => rfl
  | cons c cs ih =>
    rw [List.foldl_cons, ih, advance]
    split
    · rename_i hc
      rw [hc, List.count_cons_self, Nat.add_assoc, Nat.add_comm 1]
    · rename_i hc
      rw [List.count_cons_of_ne hc]

end Location

theorem locateFrom_append (l : Location) (u v : List Char) :
    locateFrom l (l.offset + byteLength u) (u ++ v) = u.foldl Location.advance l := by
  induction u generalizing l with
  | nil =>
    cases v with
    | nil => rfl
    | cons c cs =>
      have := c.utf8Size_pos
      rw [List.nil_append, locateFrom, if_neg (by simp only [byteLength_nil]; omega)]
      rfl
  | cons c cs ih =>
    have hle : l.offset + c.utf8Size ≤ l.offset + byteLength (c :: cs) := by
      rw [byteLength_cons]
      omega
    rw [List.cons_append, locateFrom, if_pos hle, List.foldl_cons, ← ih (l.advance c),
      Location.offset_advance, byteLength_cons, Nat.add_assoc]

/-- The place after the first part of a text. -/
theorem locate_append (u v : List Char) :
    locate (u ++ v) (byteLength u) = u.foldl Location.advance .start := by
  rw [locate, ← locateFrom_append .start u v, Location.start, Nat.zero_add]

theorem offset_locate_append (u v : List Char) :
    (locate (u ++ v) (byteLength u)).offset = byteLength u := by
  rw [locate_append, Location.offset_foldl_advance, Location.start, Nat.zero_add]

theorem line_locate_append (u v : List Char) :
    (locate (u ++ v) (byteLength u)).line = 1 + u.count '\n' := by
  rw [locate_append, Location.line_foldl_advance, Location.start]

/-- Going forward by some bytes passes the same lines from everywhere. -/
theorem line_locateFrom (l l' : Location) (cs : List Char) (n : Nat) :
    (locateFrom l (l.offset + n) cs).line + l'.line =
      l.line + (locateFrom l' (l'.offset + n) cs).line := by
  induction cs generalizing l l' n with
  | nil => rfl
  | cons c cs ih =>
    rw [locateFrom, locateFrom]
    by_cases hc : c.utf8Size ≤ n
    · obtain ⟨k, rfl⟩ := Nat.exists_eq_add_of_le hc
      have hoffset : ∀ l : Location, l.offset + (c.utf8Size + k) = (l.advance c).offset + k := by
        intro l
        rw [Location.offset_advance, Nat.add_assoc]
      have hline : (l.advance c).line + l'.line = l.line + (l'.advance c).line := by
        rw [Location.advance, Location.advance]
        split
        · exact Nat.add_right_comm _ _ _
        · rfl
      have hrest := ih (l.advance c) (l'.advance c) k
      rw [if_pos (by omega), if_pos (by omega), hoffset, hoffset]
      omega
    · rw [if_neg (by omega), if_neg (by omega)]

theorem locateFrom_append_add (l : Location) (u v : List Char) (n : Nat) :
    locateFrom l (l.offset + byteLength u + n) (u ++ v) =
      locateFrom (u.foldl Location.advance l) ((u.foldl Location.advance l).offset + n) v := by
  induction u generalizing l with
  | nil => rfl
  | cons c u ih =>
    have hoffset : l.offset + byteLength (c :: u) + n = (l.advance c).offset + byteLength u + n := by
      rw [byteLength_cons, Location.offset_advance, Nat.add_assoc l.offset c.utf8Size]
    rw [List.cons_append, locateFrom, if_pos (by rw [byteLength_cons]; omega), hoffset, ih,
      List.foldl_cons]

/-- The line of a place in the second part of a text. -/
theorem line_locate_append_add (u v : List Char) (n : Nat) :
    (locate (u ++ v) (byteLength u + n)).line = u.count '\n' + (locate v n).line := by
  have happend := locateFrom_append_add .start u v n
  have hline := line_locateFrom (u.foldl Location.advance .start) .start v n
  rw [← happend, Location.line_foldl_advance, Location.start, Nat.zero_add, Nat.zero_add] at hline
  rw [locate, locate, Location.start]
  dsimp only at hline
  omega

/-! ## Slices -/

theorem dropBytes_append_add (u v : List Char) (n : Nat) :
    dropBytes (byteLength u + n) (u ++ v) = dropBytes n v := by
  induction u with
  | nil => rw [byteLength_nil, Nat.zero_add, List.nil_append]
  | cons c u ih =>
    have hpos := c.utf8Size_pos
    obtain ⟨k, hk⟩ : ∃ k, byteLength (c :: u) + n = k + 1 :=
      ⟨byteLength (c :: u) + n - 1, by rw [byteLength_cons]; omega⟩
    have hrest : k + 1 - c.utf8Size = byteLength u + n := by
      rw [byteLength_cons] at hk
      omega
    rw [hk, List.cons_append, dropBytes, hrest, ih]

theorem dropBytes_byteLength (u v : List Char) : dropBytes (byteLength u) (u ++ v) = v := by
  have h := dropBytes_append_add u v 0
  rwa [Nat.add_zero, dropBytes] at h

theorem takeBytes_append_add (u v : List Char) (n : Nat) :
    takeBytes (byteLength u + n) (u ++ v) = u ++ takeBytes n v := by
  induction u with
  | nil => rw [byteLength_nil, Nat.zero_add, List.nil_append, List.nil_append]
  | cons c u ih =>
    have hle : c.utf8Size ≤ byteLength (c :: u) + n := by
      rw [byteLength_cons]
      omega
    have hrest : byteLength (c :: u) + n - c.utf8Size = byteLength u + n := by
      rw [byteLength_cons]
      omega
    rw [List.cons_append, takeBytes, if_pos hle, hrest, ih, List.cons_append]

theorem takeBytes_append_of_le {u : List Char} {n : Nat} (h : n ≤ byteLength u) (v : List Char) :
    takeBytes n (u ++ v) = takeBytes n u := by
  induction u generalizing n with
  | nil =>
    obtain rfl := Nat.le_zero.1 h
    cases v with
    | nil => rfl
    | cons c v => exact if_neg (by have := c.utf8Size_pos; omega)
  | cons c u ih =>
    rw [byteLength_cons] at h
    rw [List.cons_append, takeBytes, takeBytes]
    split
    · rw [ih (by omega)]
    · rfl

@[simp] theorem takeBytes_zero (cs : List Char) : takeBytes 0 cs = [] :=
  takeBytes_append_of_le (u := []) (Nat.le_refl 0) cs

theorem takeBytes_byteLength (u v : List Char) : takeBytes (byteLength u) (u ++ v) = u := by
  have h := takeBytes_append_add u v 0
  rwa [takeBytes_zero, List.append_nil, Nat.add_zero] at h

/-- What comes before a part only moves its slices. -/
theorem slice_append_add (u v : List Char) (start stop : Nat) :
    slice (u ++ v) (byteLength u + start) (byteLength u + stop) = slice v start stop := by
  rw [slice, dropBytes_append_add, Nat.add_sub_add_left, slice]

theorem slice_byteLength (x v : List Char) (stop : Nat) :
    slice (x ++ v) (byteLength x) stop = takeBytes (stop - byteLength x) v := by
  rw [slice, dropBytes_byteLength]

/-- What follows a part does not matter for its slices. -/
theorem slice_append_of_le (x : List Char) {y : List Char} {stop : Nat}
    (h : stop ≤ byteLength x + byteLength y) (v : List Char) :
    slice (x ++ (y ++ v)) (byteLength x) stop = slice (x ++ y) (byteLength x) stop := by
  rw [slice_byteLength, slice_byteLength, takeBytes_append_of_le (by omega)]

/-- A slice over the break between two parts. -/
theorem slice_over (x y v : List Char) (stop : Nat) :
    slice (x ++ (y ++ v)) (byteLength x) (byteLength x + (byteLength y + stop)) =
      y ++ takeBytes stop v := by
  rw [slice_byteLength, Nat.add_sub_cancel_left, takeBytes_append_add]

theorem byteLength_pos {cs : List Char} (h : cs ≠ []) : 0 < byteLength cs := by
  obtain ⟨c, cs, rfl⟩ := List.exists_cons_of_ne_nil h
  rw [byteLength_cons]
  exact Nat.add_pos_left c.utf8Size_pos _

/-- Of two first parts of a text the one with fewer bytes starts the other. -/
theorem isPrefix_of_byteLength_le {x y u v : List Char} (hle : byteLength x ≤ byteLength u)
    (h : x ++ y = u ++ v) : x <+: u := by
  rcases List.append_eq_append_iff.1 h with ⟨a, hu, -⟩ | ⟨a, hx, -⟩
  · exact ⟨a, hu.symm⟩
  · by_cases ha : a = []
    · refine ⟨[], ?_⟩
      rw [hx, ha, List.append_nil, List.append_nil]
    · have hpos := byteLength_pos ha
      rw [hx, byteLength_append] at hle
      omega

/-- The slice that ends with the second part of a text. -/
theorem slice_between (x a v : List Char) :
    slice (x ++ (a ++ v)) (byteLength x) (byteLength (x ++ a)) = a := by
  have h := slice_over x a v 0
  rwa [takeBytes_zero, List.append_nil, Nat.add_zero, ← byteLength_append] at h

/-- A slice between the ends of two first parts of a text. -/
theorem append_slice_append {x y u v : List Char} (hle : byteLength x ≤ byteLength u)
    (h : x ++ y = u ++ v) :
    x ++ y = x ++ slice (x ++ y) (byteLength x) (byteLength u) ++ v := by
  obtain ⟨a, rfl⟩ := isPrefix_of_byteLength_le hle h
  rw [h, List.append_assoc x, slice_between, List.append_assoc]

end ChaiBind.Text
