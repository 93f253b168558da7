import ChaiBind.Proofs.Header.ClassLines
import ChaiBind.Proofs.Text.Bytes
import ChaiBind.Proofs.Text.MovedPlaces
import Mathlib.Algebra.Group.Nat.Defs
import Mathlib.Data.Prod.Lex
import Mathlib.Order.Bounds.Basic

/-!
# Lines and columns

An offset is located behind the longest start of the text that has no more bytes (`locate_eq`). That
start is made of whole lines and a part of a line; the line of the location counts the ones, and its
column the characters of the other, both from one on (`exists_lines_locate`). So the two lead back to
the offset: to where the line starts, and along its characters (`offsetAt?_place_locate`).

* `isGreatest_offset_locate`: how an offset inside a character or past the end is moved back.
* `offset_locate_le_iff`: places are in the order of their offsets, since each character goes to a
  later line or to a later column of the same line (`Location.place_lt_advance`).

In words of 32 bits this holds as long as the words hold the numbers, which is everywhere in a text of
less than `2 ^ 32` bytes but at the end of one that is `Overfull` (`locationAt_leads_back_iff`).
-/

namespace ChaiBind.Text

open Header (linesBytes_splitLines placeLines placeLines_append)

/-! ## Offsets -/

/-- Going forward by some bytes passes the longest start that has no more. -/
theorem locateFrom_eq (l : Location) (n : Nat) (cs : List Char) :
    locateFrom l (l.offset + n) cs = (takeBytes n cs).foldl Location.advance l := by
  induction cs generalizing l n with
  | nil => rfl
  | cons c cs ih =>
    rw [locateFrom, takeBytes]
    by_cases hc : c.utf8Size ≤ n
    · obtain ⟨k, rfl⟩ := Nat.exists_eq_add_of_le hc
      have hoffset : l.offset + (c.utf8Size + k) = (l.advance c).offset + k := by
        rw [Location.offset_advance, Nat.add_assoc]
      rw [if_pos (by omega), if_pos hc, hoffset, ih, Nat.add_sub_cancel_left, List.foldl_cons]
    · rw [if_neg (by omega), if_neg hc, List.foldl_nil]

theorem locate_eq (text : List Char) (offset : Nat) :
    locate text offset = (takeBytes offset text).foldl Location.advance .start := by
  rw [locate, ← locateFrom_eq .start, Location.start, Nat.zero_add]

theorem offset_locate (text : List Char) (offset : Nat) :
    (locate text offset).offset = byteLength (takeBytes offset text) := by
  rw [locate_eq, Location.offset_foldl_advance, Location.start, Nat.zero_add]

/-- An offset is moved back to the last boundary that is not past it. -/
theorem isGreatest_offset_locate (text : List Char) (offset : Nat) :
    IsGreatest {n | IsBoundary text n ∧ n ≤ min offset (byteLength text)}
      (locate text offset).offset := by
  constructor
  · obtain ⟨rest, htext⟩ := takeBytes_isPrefix offset text
    have hboundary : IsBoundary text (locate text offset).offset :=
      ⟨takeBytes offset text, rest, htext.symm, (offset_locate text offset).symm⟩
    exact ⟨hboundary, Nat.le_min.2 ⟨offset_locate_le text offset, hboundary.le⟩⟩
  · rintro n ⟨⟨u, v, rfl, rfl⟩, hle⟩
    -- What is in front of a boundary that is not past the offset is passed whole.
    obtain ⟨k, rfl⟩ := Nat.exists_eq_add_of_le (Nat.le_min.1 hle).1
    rw [offset_locate, takeBytes_append_add, byteLength_append]
    omega

/-! ## Places -/

namespace Location

theorem column_foldl_of_endsLine {lines : List Char} (h : EndsLine lines) :
    (lines.foldl advance start).column = 1 := by
  rcases h.eq_nil_or with rfl | ⟨lines, rfl⟩
  · rfl
  · rw [List.foldl_append]
    rfl

theorem column_foldl_of_notMem (l : Location) {line : List Char} (h : '\n' ∉ line) :
    (line.foldl advance l).column = l.column + line.length := by
  induction line generalizing l with
  | nil => rfl
  | cons c line ih =>
    rw [List.mem_cons, not_or] at h
    have hstep : (l.advance c).column = l.column + 1 := by
      rw [advance, if_neg (Ne.symm h.1)]
    rw [List.foldl_cons, ih _ h.2, hstep, List.length_cons]
    omega

/-- The place behind whole lines and a part of a line. -/
theorem place_foldl_append {lines line : List Char} (hlines : EndsLine lines) (hline : '\n' ∉ line) :
    ((lines ++ line).foldl advance start).place = (lines.count '\n' + 1, line.length + 1) := by
  have hcount : line.count '\n' = 0 := List.count_eq_zero.2 hline
  have hcolumn := column_foldl_of_endsLine hlines
  rw [place, line_foldl_advance, List.foldl_append, column_foldl_of_notMem _ hline, hcolumn,
    List.count_append, hcount, start, Nat.add_zero, Nat.add_comm 1, Nat.add_comm 1]

/-- A newline goes to a later line, and another character to a later column. -/
theorem place_lt_advance (l : Location) (c : Char) : toLex l.place < toLex (l.advance c).place := by
  rw [Prod.Lex.toLex_lt_toLex, advance]
  split
  · exact .inl (Nat.lt_succ_self l.line)
  · exact .inr ⟨rfl, Nat.lt_succ_self l.column⟩

theorem place_lt_foldl (l : Location) {cs : List Char} (h : cs ≠ []) :
    toLex l.place < toLex (cs.foldl advance l).place := by
  induction cs generalizing l with
  | nil => exact absurd rfl h
  | cons c cs ih =>
    have hstep := place_lt_advance l c
    rw [List.foldl_cons]
    by_cases hcs : cs = []
    · rwa [hcs, List.foldl_nil]
    · exact lt_trans hstep (ih _ hcs)

end Location

/-- What a location counts: the whole lines in front of it and the characters behind them. -/
theorem exists_lines_locate (text : List Char) (offset : Nat) :
    ∃ lines line rest, text = lines ++ line ++ rest ∧ EndsLine lines ∧ '\n' ∉ line ∧
      (locate text offset).offset = byteLength (lines ++ line) ∧
      (locate text offset).place = (lines.count '\n' + 1, line.length + 1) := by
  obtain ⟨rest, htext⟩ := takeBytes_isPrefix offset text
  obtain ⟨lines, line, hfront, hlines, hline⟩ := exists_endsLine_append (takeBytes offset text)
  refine ⟨lines, line, rest, ?_, hlines, hline, ?_, ?_⟩
  · rw [← hfront, htext]
  · rw [offset_locate, hfront]
  · rw [locate_eq, hfront, Location.place_foldl_append hlines hline]

/-! ## The order of places -/

/-- From one location of a text on to another that does not come before it. -/
theorem exists_locate_eq_foldl {text : List Char} {m n : Nat}
    (h : (locate text m).offset ≤ (locate text n).offset) :
    ∃ between : List Char, locate text n = between.foldl Location.advance (locate text m) := by
  obtain ⟨u, hu⟩ := takeBytes_isPrefix m text
  obtain ⟨v, hv⟩ := takeBytes_isPrefix n text
  rw [offset_locate, offset_locate] at h
  obtain ⟨between, hbetween⟩ := isPrefix_of_byteLength_le h (hu.trans hv.symm)
  exact ⟨between, by rw [locate_eq, ← hbetween, List.foldl_append, ← locate_eq]⟩

theorem place_locate_le {text : List Char} {m n : Nat}
    (h : (locate text m).offset ≤ (locate text n).offset) :
    toLex (locate text m).place ≤ toLex (locate text n).place := by
  obtain ⟨between, hbetween⟩ := exists_locate_eq_foldl h
  rw [hbetween]
  by_cases hnil : between = []
  · rw [hnil, List.foldl_nil]
  · exact le_of_lt (Location.place_lt_foldl _ hnil)

theorem place_locate_lt {text : List Char} {m n : Nat}
    (h : (locate text m).offset < (locate text n).offset) :
    toLex (locate text m).place < toLex (locate text n).place := by
  obtain ⟨between, hbetween⟩ := exists_locate_eq_foldl (Nat.le_of_lt h)
  have hne : between ≠ [] := by
    rintro rfl
    rw [hbetween, List.foldl_nil] at h
    exact Nat.lt_irrefl _ h
  rw [hbetween]
  exact Location.place_lt_foldl _ hne

/-- Places are in the order of their offsets: by the line, and in one line by the column. -/
theorem offset_locate_le_iff (text : List Char) (m n : Nat) :
    (locate text m).offset ≤ (locate text n).offset ↔
      toLex (locate text m).place ≤ toLex (locate text n).place := by
  refine ⟨place_locate_le, fun hle => ?_⟩
  -- The strict order is kept as well, so that the order is also reflected.
  by_contra hlt
  exact not_le_of_gt (place_locate_lt (Nat.lt_of_not_le hlt)) hle

/-! ## Back to the offset -/

/-- The offset of a line and a column: where the line starts, and on along its characters. A line has
one column more than characters. -/
def offsetAt? (text : List Char) : Nat × Nat → Option Nat
  | (line + 1, column + 1) =>
    (placeLines 0 (splitLines text))[line]?.bind fun (start, chars) =>
      if column ≤ chars.length then some (start + byteLength (chars.take column)) else none
  | _ => none

theorem length_placeLines (offset : Nat) (lines : List (List Char)) :
    (placeLines offset lines).length = lines.length := by
  induction lines generalizing offset with
  | nil => rfl
  | cons line lines ih => rw [placeLines, List.length_cons, ih, List.length_cons]

/-- Behind whole lines a line starts. -/
theorem getElem?_placeLines {lines : List Char} (h : EndsLine lines) (rest : List Char) :
    (placeLines 0 (splitLines (lines ++ rest)))[lines.count '\n']? =
      some (byteLength lines, (splitLines rest).headD []) := by
  obtain ⟨line, below, hrest⟩ := List.exists_cons_of_ne_nil (pieces_ne_nil isNewline rest)
  rw [← splitLines] at hrest
  rcases h.eq_nil_or with rfl | ⟨lines, rfl⟩
  · rw [List.nil_append, hrest]
    rfl
  · have hlength : (placeLines 0 (splitLines lines)).length = (lines ++ ['\n']).count '\n' := by
      rw [length_placeLines, splitLines, length_pieces, List.count_append]
      rfl
    have hbytes : byteLength (lines ++ ['\n']) = byteLength lines + 1 := byteLength_append _ _
    rw [List.append_assoc, List.singleton_append, splitLines_append_newline, placeLines_append,
      List.getElem?_append_right (Nat.le_of_eq hlength), hlength, Nat.sub_self, hrest,
      linesBytes_splitLines, hbytes, Nat.zero_add]
    rfl

theorem offsetAt?_append {lines line : List Char} (hlines : EndsLine lines) (hline : '\n' ∉ line)
    (rest : List Char) :
    offsetAt? (lines ++ line ++ rest) (lines.count '\n' + 1, line.length + 1) =
      some (byteLength (lines ++ line)) := by
  have hnone : ∀ c ∈ line, isNewline c = false := by
    intro c hc
    rw [isNewline, decide_eq_false_iff_not]
    rintro rfl
    exact hline hc
  have hchars : (splitLines (line ++ rest)).headD [] = line ++ (splitLines rest).headD [] := by
    rw [splitLines, pieces_append hnone, List.headD_cons, splitLines]
  rw [List.append_assoc, offsetAt?, getElem?_placeLines hlines, hchars, Option.bind_some]
  -- The part of the line is what its column takes of the line.
  simp

/-- The line and the column of a location lead back to its offset. -/
theorem offsetAt?_place_locate (text : List Char) (offset : Nat) :
    offsetAt? text (locate text offset).place = some (locate text offset).offset := by
  obtain ⟨lines, line, rest, htext, hlines, hline, hoffset, hplace⟩ := exists_lines_locate text offset
  rw [hplace, hoffset, htext, offsetAt?_append hlines hline]

/-! ## Words of 32 bits -/

theorem takeWhile_reverse_append {lines line : List Char} (hlines : EndsLine lines)
    (hline : '\n' ∉ line) : (lines ++ line).reverse.takeWhile (· ≠ '\n') = line.reverse := by
  have hrest : lines.reverse.takeWhile (· ≠ '\n') = [] := by
    rcases hlines.eq_nil_or with rfl | ⟨lines, rfl⟩
    · rfl
    · rw [List.reverse_append]
      rfl
  have hall : ∀ c ∈ line.reverse, decide (c ≠ '\n') := by
    intro c hc
    rw [decide_eq_true_eq]
    rintro rfl
    exact hline (List.mem_reverse.1 hc)
  rw [List.reverse_append, List.takeWhile_append_of_pos hall, hrest, List.append_nil]

/-- The words of a location are those that are counted at once. -/
theorem stored_locate (text : List Char) (offset : Nat) :
    (locate text offset).stored = locationAt text offset := by
  obtain ⟨lines, line, hfront, hlines, hline⟩ := exists_endsLine_append (takeBytes offset text)
  have hplace : (locate text offset).place = (lines.count '\n' + 1, line.length + 1) := by
    rw [locate_eq, hfront, Location.place_foldl_append hlines hline]
  obtain ⟨hrow, hcolumn⟩ := Prod.mk.inj hplace
  have hcount : (lines ++ line).count '\n' = lines.count '\n' := by
    rw [List.count_append, List.count_eq_zero.2 hline, Nat.add_zero]
  rw [Location.stored, offset_locate, hrow, hcolumn, locationAt, hfront]
  rw [takeWhile_reverse_append hlines hline, hcount, List.length_reverse, UInt32.ofNat_add,
    UInt32.ofNat_add]
  rfl

/-- The numbers that the words of the line and the column hold. -/
def StoredLocation.place (l : StoredLocation) : Nat × Nat := (l.line.toNat, l.column.toNat)

/-- The line and the column are numbers that words hold. -/
structure Location.Fits (l : Location) : Prop where
  line : l.line < 2 ^ 32
  column : l.column < 2 ^ 32

theorem Location.Fits.place_stored {l : Location} (h : l.Fits) : l.stored.place = l.place := by
  rw [stored, StoredLocation.place, place]
  dsimp only
  rw [UInt32.toNat_ofNat_of_lt' h.line, UInt32.toNat_ofNat_of_lt' h.column]

theorem length_le_byteLength (cs : List Char) : cs.length ≤ byteLength cs := by
  induction cs with
  | nil => exact Nat.le_refl 0
  | cons c cs ih =>
    have hpos := c.utf8Size_pos
    rw [List.length_cons, byteLength_cons]
    omega

/-- A text of newlines alone, or of one line, with as many characters as the greatest word counts. The
number of the line or of the column at its end is one more. -/
structure Overfull (text : List Char) : Prop where
  length : text.length = 2 ^ 32 - 1
  oneWay : (∀ c ∈ text, c = '\n') ∨ '\n' ∉ text

theorem place_locate_of_le {text : List Char} {offset : Nat} (h : byteLength text ≤ offset) :
    (locate text offset).place = (text.foldl Location.advance .start).place := by
  obtain ⟨k, rfl⟩ := Nat.exists_eq_add_of_le h
  have htake := takeBytes_append_add text [] k
  rw [List.append_nil, takeBytes, List.append_nil] at htake
  rw [locate_eq, htake]

namespace Overfull

variable {text : List Char} (h : Overfull text)
include h

/-- The end of an overfull text is on a line or in a column that no word holds. -/
theorem place_locate {offset : Nat} (hend : byteLength text ≤ offset) :
    (locate text offset).place = (2 ^ 32, 1) ∨ (locate text offset).place = (1, 2 ^ 32) := by
  rw [place_locate_of_le hend]
  rcases h.oneWay with hall | hnone
  · have hends : EndsLine text := fun c hc => hall c (List.mem_of_getLast? hc)
    have hcount : text.count '\n' = text.length :=
      List.count_eq_length.2 fun c hc => (hall c hc).symm
    have hplace := Location.place_foldl_append hends List.not_mem_nil
    rw [List.append_nil, hcount, h.length] at hplace
    exact .inl hplace
  · have hplace := Location.place_foldl_append endsLine_nil hnone
    rw [List.nil_append, h.length] at hplace
    exact .inr hplace

/-- The words for the end of an overfull text. -/
theorem place_locationAt {offset : Nat} (hend : byteLength text ≤ offset) :
    (locationAt text offset).place = (0, 1) ∨ (locationAt text offset).place = (1, 0) := by
  rw [← stored_locate, StoredLocation.place, Location.stored]
  rcases h.place_locate hend with hplace | hplace <;>
    obtain ⟨hline, hcolumn⟩ := Prod.mk.inj hplace <;>
    rw [hline, hcolumn]
  · exact .inl rfl
  · exact .inr rfl

/-- The words for the end come before those for the start. -/
theorem not_place_le :
    ¬toLex (locationAt text 0).place ≤ toLex (locationAt text (byteLength text)).place := by
  have hstart : (locationAt text 0).place = (1, 1) := by
    rw [locationAt, takeBytes_zero]
    rfl
  rw [hstart]
  rcases h.place_locationAt (Nat.le_refl _) with hplace | hplace <;>
  · rw [hplace]
    decide

end Overfull

/-- Words hold the place of every offset but the end of an overfull text. -/
theorem fits_locate_or_overfull {text : List Char} (hshort : byteLength text < 2 ^ 32) (offset : Nat) :
    (locate text offset).Fits ∨ Overfull text ∧ byteLength text ≤ offset := by
  obtain ⟨lines, line, rest, rfl, -, hline, hoffset, hplace⟩ := exists_lines_locate text offset
  obtain ⟨hrow, hcolumn⟩ := Prod.mk.inj hplace
  have hbytes := length_le_byteLength (lines ++ line ++ rest)
  have hlength : (lines ++ line ++ rest).length = lines.length + line.length + rest.length := by
    rw [List.length_append, List.length_append]
  have hcount : lines.count '\n' ≤ lines.length := List.count_le_length
  have hend : byteLength (lines ++ line) ≤ offset := hoffset ▸ offset_locate_le _ offset
  by_cases hrows : lines.count '\n' + 1 < 2 ^ 32
  · by_cases hcolumns : line.length + 1 < 2 ^ 32
    · exact .inl ⟨hrow ▸ hrows, hcolumn ▸ hcolumns⟩
    -- The text is this one line.
    · obtain rfl : lines = [] := List.eq_nil_of_length_eq_zero (by omega)
      obtain rfl : rest = [] := List.eq_nil_of_length_eq_zero (by omega)
      rw [List.append_nil]
      exact .inr ⟨⟨by rw [List.nil_append]; omega, .inr hline⟩, hend⟩
  -- The text is these newlines.
  · obtain rfl : line = [] := List.eq_nil_of_length_eq_zero (by omega)
    obtain rfl : rest = [] := List.eq_nil_of_length_eq_zero (by omega)
    have hall : ∀ c ∈ lines, c = '\n' := fun c hc =>
      (List.count_eq_length.1 (by omega) c hc).symm
    rw [List.append_nil, List.append_nil] at *
    exact .inr ⟨⟨by omega, .inl hall⟩, hend⟩

/-- The location of an offset in words: it lies at the last boundary that is neither past the offset nor
past the end. In a text of less than `2 ^ 32` bytes its line and column lead back there, and are in the
order of the boundaries, unless the text is overfull; then they do so except at the end. -/
theorem locationAt_leads_back_iff (text : List Char) (hshort : byteLength text < 2 ^ 32) :
    (∀ offset,
      IsGreatest {n | IsBoundary text n ∧ n ≤ min offset (byteLength text)}
          (locationAt text offset).offset ∧
        (offsetAt? text (locationAt text offset).place = some (locationAt text offset).offset ↔
          ¬(Overfull text ∧ byteLength text ≤ offset))) ∧
    ((∀ m n, (locationAt text m).offset ≤ (locationAt text n).offset ↔
        toLex (locationAt text m).place ≤ toLex (locationAt text n).place) ↔ ¬Overfull text) := by
  have hfits : ∀ {offset}, ¬(Overfull text ∧ byteLength text ≤ offset) →
      (locationAt text offset).place = (locate text offset).place := by
    intro offset hnot
    rw [← stored_locate]
    exact ((fits_locate_or_overfull hshort offset).resolve_right hnot).place_stored
  refine ⟨fun offset => ⟨?_, ?_⟩, ?_⟩
  · rw [← stored_locate]
    exact isGreatest_offset_locate text offset
  · constructor
    · rintro hback ⟨hover, hend⟩
      rcases hover.place_locationAt hend with hplace | hplace <;> rw [hplace] at hback <;> cases hback
    · intro hnot
      rw [hfits hnot, ← stored_locate]
      exact offsetAt?_place_locate text offset
  · constructor
    · intro horder hover
      refine hover.not_place_le ((horder 0 (byteLength text)).1 ?_)
      rw [← stored_locate]
      exact (offset_locate_le text 0).trans (Nat.zero_le _)
    · intro hnot m n
      rw [hfits fun h => hnot h.1, hfits fun h => hnot h.1, ← stored_locate, ← stored_locate]
      exact offset_locate_le_iff text m n

/-- An offset inside the third character of the third line, and one past the end, which is behind a
newline. -/
theorem locationAt_leads_back_wide :
    let text := "é//\n\n\t €\r\n".toList
    byteLength text < 2 ^ 32 ∧ locationAt text 10 = ⟨8, 3, 3⟩ ∧ locationAt text 99 = ⟨13, 4, 1⟩ ∧
      IsGreatest {n | IsBoundary text n ∧ n ≤ min 10 (byteLength text)} 8 ∧
      offsetAt? text (3, 3) = some 8 ∧ offsetAt? text (4, 1) = some 13 ∧
      (8 ≤ 13 ↔ toLex (3, 3) ≤ toLex (4, 1)) := by
  intro text
  have hshort : byteLength text < 2 ^ 32 := by decide
  have hinside : locationAt text 10 = ⟨8, 3, 3⟩ := by decide
  have hpast : locationAt text 99 = ⟨13, 4, 1⟩ := by decide
  have hnot : ¬Overfull text := fun h => absurd h.length (by decide)
  obtain ⟨hplaces, horder⟩ := locationAt_leads_back_iff text hshort
  obtain ⟨hgreatest, hback⟩ := hplaces 10
  have hend := (hplaces 99).2
  have hbefore := horder.2 hnot 10 99
  rw [hinside] at hgreatest hback hbefore
  rw [hpast] at hend hbefore
  exact ⟨hshort, hinside, hpast, hgreatest, hback.2 fun h => hnot h.1, hend.2 fun h => hnot h.1,
    hbefore⟩

theorem byteLength_newlines (n : Nat) : byteLength (List.replicate n '\n') = n := by
  induction n with
  | zero => rfl
  | succ n ih =>
    rw [List.replicate_succ, byteLength_cons, ih]
    exact Nat.add_comm 1 n

theorem locationAt_replicate (n : Nat) :
    locationAt (List.replicate n '\n') n = ⟨n, .ofNat n + 1, 1⟩ := by
  have htake := takeBytes_byteLength (List.replicate n '\n') []
  rw [byteLength_newlines, List.append_nil] at htake
  have hline : (List.replicate n '\n').takeWhile (· ≠ '\n') = [] := by
    rw [List.takeWhile_replicate]
    rfl
  rw [locationAt, htake, List.reverse_replicate, hline, byteLength_newlines, List.count_replicate_self]
  rfl

theorem overfull_newlines : Overfull (List.replicate (2 ^ 32 - 1) '\n') :=
  ⟨List.length_replicate, .inl fun _ hc => List.eq_of_mem_replicate hc⟩

/-- Behind `2 ^ 32 - 1` newlines the word for the line is 0, which no line has, and comes before the word
for the first line. -/
theorem locationAt_newlines :
    let text := List.replicate (2 ^ 32 - 1) '\n'
    let last := locationAt text (2 ^ 32 - 1)
    byteLength text < 2 ^ 32 ∧ last = ⟨2 ^ 32 - 1, 0, 1⟩ ∧
      offsetAt? text last.place ≠ some last.offset ∧
      ¬((locationAt text 0).offset ≤ last.offset ↔
        toLex (locationAt text 0).place ≤ toLex last.place) := by
  intro text last
  have hbytes : byteLength text = 2 ^ 32 - 1 := byteLength_newlines _
  have hlast : last = ⟨2 ^ 32 - 1, 0, 1⟩ := locationAt_replicate (2 ^ 32 - 1)
  have hstart : (locationAt text 0).offset ≤ last.offset := by
    rw [← stored_locate]
    exact (offset_locate_le text 0).trans (Nat.zero_le _)
  have hplace := overfull_newlines.not_place_le
  rw [byteLength_newlines] at hplace
  refine ⟨by omega, hlast, ?_, fun horder => hplace (horder.1 hstart)⟩
  rw [hlast]
  nofun

end ChaiBind.Text
