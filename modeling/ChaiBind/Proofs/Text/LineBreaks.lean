import ChaiBind.Proofs.Text.Parts
import ChaiBind.Proofs.Text.Positions

/-!
# Breaks between lines

A text that is broken where a line ends or starts has the positions of its first
part, with the second part behind each, and then those of its second part
(`cursorsFrom_append`). A comment at the end of a line leaves a blank there
(`stripFrom_comment`), so that the lines around it stay as they are.
-/

namespace ChaiBind.Text

/-- The text is empty or starts with a newline. -/
def StartsLine (cs : List Char) : Prop := ∀ c ∈ cs.head?, c = '\n'

instance (cs : List Char) : Decidable (StartsLine cs) :=
  inferInstanceAs (Decidable (∀ c ∈ cs.head?, c = '\n'))

theorem startsLine_newline (cs : List Char) : StartsLine ('\n' :: cs) := by
  intro c hc
  exact (Option.some.inj hc).symm

theorem StartsLine.eq_nil_or {cs : List Char} (h : StartsLine cs) :
    cs = [] ∨ ∃ ds, cs = '\n' :: ds := by
  cases cs with
  | nil => exact .inl rfl
  | cons c cs =>
    obtain rfl : c = '\n' := h c rfl
    exact .inr ⟨cs, rfl⟩

theorem StartsLine.not_opens {cs : List Char} (h : StartsLine cs) : ¬ Scan.Opens cs.head? := by
  rcases h.eq_nil_or with rfl | ⟨ds, rfl⟩ <;> simp [Scan.Opens]

/-! ## Positions -/

namespace Cursor

/-- The position with more text behind it. -/
def extend (v : List Char) (p : Cursor) : Cursor := { p with rest := p.rest ++ v }

end Cursor

/-- The positions of a text that a character follows. -/
def startsFrom (before : Option Char) (offset : Nat) : List Char → List Cursor
  | [] => []
  | c :: cs => ⟨before, offset, c :: cs⟩ :: startsFrom (some c) (offset + c.utf8Size) cs

theorem cursorsFrom_append (before : Option Char) (offset : Nat) (u v : List Char) :
    cursorsFrom before offset (u ++ v) =
      (startsFrom before offset u).map (Cursor.extend v) ++
        cursorsFrom (u.getLast?.or before) (offset + byteLength u) v := by
  induction u generalizing before offset with
  | nil => rfl
  | cons c u ih =>
    have hlast : (c :: u).getLast?.or before = u.getLast?.or (some c) := by
      rw [List.getLast?_cons, Option.some_or, ← Option.or_some]
    rw [List.cons_append, cursorsFrom, ih, hlast, startsFrom, List.map_cons, byteLength_cons,
      Nat.add_assoc]
    rfl

theorem cursorsFrom_eq (before : Option Char) (offset : Nat) (u : List Char) :
    cursorsFrom before offset u = startsFrom before offset u ++
      [⟨u.getLast?.or before, offset + byteLength u, []⟩] := by
  have h := cursorsFrom_append before offset u []
  have hid : Cursor.extend [] = id := by
    funext p
    simp [Cursor.extend]
  rwa [List.append_nil, hid, List.map_id] at h

/-- What follows a position is an end of the text that is not empty. -/
theorem exists_of_mem_startsFrom {before : Option Char} {offset : Nat} {u : List Char} {p : Cursor}
    (h : p ∈ startsFrom before offset u) :
    ∃ pre, u = pre ++ p.rest ∧ p.rest ≠ [] ∧ p.offset = offset + byteLength pre := by
  induction u generalizing before offset with
  | nil => cases h
  | cons c u ih =>
    rw [startsFrom] at h
    rcases List.mem_cons.1 h with rfl | h
    · exact ⟨[], rfl, List.cons_ne_nil c u, rfl⟩
    · obtain ⟨pre, hu, hne, hoffset⟩ := ih h
      refine ⟨c :: pre, congrArg (c :: ·) hu, hne, ?_⟩
      rw [hoffset, byteLength_cons, Nat.add_assoc]

/-- A position is any break of the text. -/
theorem mem_cursorsFrom_iff {before : Option Char} {offset : Nat} {cs : List Char} {p : Cursor} :
    p ∈ cursorsFrom before offset cs ↔ ∃ pre, cs = pre ++ p.rest ∧
      p.before = pre.getLast?.or before ∧ p.offset = offset + byteLength pre := by
  constructor
  · intro h
    induction cs generalizing before offset with
    | nil =>
      obtain rfl := List.mem_singleton.1 h
      exact ⟨[], rfl, rfl, rfl⟩
    | cons c cs ih =>
      rcases List.mem_cons.1 h with rfl | h
      · exact ⟨[], rfl, rfl, rfl⟩
      · obtain ⟨pre, rfl, hbefore, hoffset⟩ := ih h
        refine ⟨c :: pre, rfl, ?_, ?_⟩
        · rw [hbefore, List.getLast?_cons, Option.some_or, ← Option.or_some]
        · rw [hoffset, byteLength_cons, Nat.add_assoc]
  · rintro ⟨pre, rfl, hbefore, hoffset⟩
    rw [cursorsFrom_append, ← hbefore, ← hoffset]
    obtain ⟨before', offset', rest⟩ := p
    cases rest <;> exact List.mem_append_right _ List.mem_cons_self

/-- An end of whole lines that is not empty ends with a newline. -/
theorem EndsLine.exists_of_append {pre x : List Char} (h : EndsLine (pre ++ x)) (hx : x ≠ []) :
    ∃ y, x = y ++ ['\n'] := by
  have hends : EndsLine x := fun c hc => h c (by rwa [List.getLast?_append_of_ne_nil pre hx])
  exact hends.eq_nil_or.resolve_left hx

/-! ## Comments at the end of a line -/

/-- A line comment with a blank in front of it. -/
def lineComment (c : List Char) : List Char := ' ' :: '/' :: '/' :: ' ' :: c

theorem takeIdentifier_lineComment (cs c : List Char) :
    takeIdentifier (cs ++ lineComment c) =
      (takeIdentifier cs).map fun p => (p.1, p.2 ++ lineComment c) := by
  by_cases hnil : cs = []
  · subst hnil
    rfl
  · exact takeIdentifier_append_of_head hnil rfl

/-- The scan goes on behind a newline in code and behind one in a comment in the same way. -/
theorem stripFrom_of_startsLine {cs : List Char} (h : StartsLine cs) (afterWord : Bool) :
    stripFrom (.code afterWord) cs = stripComments cs ∧
      stripFrom .lineComment cs = stripComments cs := by
  rcases h.eq_nil_or with rfl | ⟨ds, rfl⟩
  · exact ⟨rfl, rfl⟩
  · exact ⟨rfl, rfl⟩

/-- A comment at the end of a line leaves its blank. -/
theorem stripFrom_comment {c rest : List Char} (hc : '\n' ∉ c) (hrest : StartsLine rest)
    (afterWord : Bool) :
    stripFrom (.code afterWord) (lineComment c ++ rest) = ' ' :: stripComments rest := by
  have hopen : ∀ cs, stripFrom (.code afterWord) (lineComment cs) = ' ' :: stripFrom .lineComment cs :=
    fun cs => rfl
  have happend : lineComment c ++ rest = lineComment (c ++ rest) := rfl
  rw [happend, hopen, stripFrom_append, stripPart_lineComment hc, after_lineComment hc,
    (stripFrom_of_startsLine hrest false).2, List.nil_append]

end ChaiBind.Text
