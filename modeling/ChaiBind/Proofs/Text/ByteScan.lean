import ChaiBind.Proofs.Text.Bytes
import ChaiBind.Proofs.Text.LayerRuns
import Mathlib.Data.List.Infix

/-!
# Scanning bytes

Comments can be stripped byte by byte: a scan goes from position to position, jumps over literals and
comments, and copies what is between comments, slice by slice (`ByteScan.round?`). It steps over the
bytes of a character one at a time, and over two bytes behind a backslash, so that it also comes to
positions inside characters.

* `literalEnd_wide`: a literal is read on from any byte of a character that is none in ASCII.
* `exists_literalEnd`: the bytes of a literal are the characters that the scan of a text puts in it.
* `exists_lineEnd`, `exists_commentEnd`: where a comment ends.
-/

namespace ChaiBind.Text

/-- What a scan of bytes has done. -/
structure ByteScan where
  /-- The position ahead. -/
  pos : Nat
  /-- The position up to which the text has been copied or dropped. -/
  copied : Nat
  out : List Char
deriving DecidableEq, Repr

namespace ByteScan

/-- Before the first byte. -/
def start : ByteScan := ⟨0, 0, []⟩

/-- Where a literal ends, from a position inside it: behind its quote, in front of a newline or at the
end of the text. A backslash takes the byte after it along. -/
def literalEnd (text : List Char) (quote : Char) (i : Nat) : Nat :=
  match _h : byteAt? text i with
  | none => byteLength text
  | some b =>
    if b = '\\' then literalEnd text quote (i + 2)
    else if b = '\n' then i
    else if b = quote then i + 1
    else literalEnd text quote (i + 1)
termination_by byteLength text - i
decreasing_by all_goals have := lt_of_byteAt? _h; omega

/-- A quote opens a literal at a position, and does not separate digits. -/
def opensLiteral (text : List Char) (i : Nat) : Bool :=
  byteAt? text i = some '"' ||
    (byteAt? text i = some '\'' && !(0 < i && (byteAt? text (i - 1)).any Char.isAlphanum))

/-- One round of the scan, which needs a byte ahead and all slices that it takes. -/
def round? (text : List Char) (s : ByteScan) : Option ByteScan := do
  let b ← byteAt? text s.pos
  if opensLiteral text s.pos then
    return { s with pos := literalEnd text b (s.pos + 1) }
  else if b = '/' && byteAt? text (s.pos + 1) = some '/' then
    let kept ← slice? text s.copied s.pos
    let ahead ← slice? text s.pos (byteLength text)
    let stop := (offsetOf? ['\n'] ahead).elim (byteLength text) (s.pos + ·)
    return ⟨stop, stop, s.out ++ kept⟩
  else if b = '/' && byteAt? text (s.pos + 1) = some '*' then
    let kept ← slice? text s.copied s.pos
    let ahead ← slice? text (s.pos + 2) (byteLength text)
    let stop := (offsetOf? ['*', '/'] ahead).elim (byteLength text) (s.pos + 2 + · + 2)
    let comment ← slice? text s.pos stop
    return ⟨stop, stop, s.out ++ kept ++ comment.filter (· = '\n')⟩
  else
    return { s with pos := s.pos + 1 }

/-- What the scan leaves when no byte is ahead. -/
def finish? (text : List Char) (s : ByteScan) : Option (List Char) := do
  let kept ← slice? text s.copied (byteLength text)
  return s.out ++ kept

/-- Where the scan of a text stands after some rounds. -/
inductive Reached (text : List Char) : Nat → ByteScan → Prop
  | start : Reached text 0 .start
  | round {n : Nat} {s s' : ByteScan} (before : Reached text n s) (ahead : s.pos < byteLength text)
      (moves : s.round? text = some s') : Reached text (n + 1) s'

/-! ## The end of a literal -/

section Literal

variable {text : List Char} {quote : Char}

theorem literalEnd_of_none {i : Nat} (h : byteAt? text i = none) :
    literalEnd text quote i = byteLength text := by
  rw [literalEnd]
  split
  · rfl
  · rename_i hbyte
    rw [h] at hbyte
    cases hbyte

theorem literalEnd_of_some {i : Nat} {b : Char} (h : byteAt? text i = some b) :
    literalEnd text quote i =
      if b = '\\' then literalEnd text quote (i + 2)
      else if b = '\n' then i
      else if b = quote then i + 1
      else literalEnd text quote (i + 1) := by
  rw [literalEnd]
  split
  · rename_i hbyte
    rw [h] at hbyte
    cases hbyte
  · rename_i hbyte
    rw [h] at hbyte
    obtain rfl := Option.some.inj hbyte
    rfl

variable (hquote : IsAscii quote) {u v : List Char} {c : Char}
include hquote

/-- The bytes of a character outside ASCII are passed over, from any of them. -/
theorem literalEnd_wide (hc : ¬ IsAscii c) {k : Nat} (hk : k ≤ c.utf8Size) :
    literalEnd (u ++ c :: v) quote (byteLength u + k) =
      literalEnd (u ++ c :: v) quote (byteLength (u ++ [c])) := by
  rw [byteLength_append_singleton]
  induction hleft : c.utf8Size - k generalizing k with
  | zero => rw [show k = c.utf8Size by omega]
  | succ n ih =>
    obtain ⟨b, hb, hwide⟩ := exists_byteAt?_wide hc (k := k) (by omega) v
    rw [← byteAt?_append_add u] at hb
    have hne : ∀ {d : Char}, IsAscii d → b ≠ d := fun hd hbd => hwide (hbd ▸ hd)
    rw [literalEnd_of_some hb, if_neg (hne (by decide)), if_neg (hne (by decide)), if_neg (hne hquote),
      Nat.add_assoc]
    exact ih (by omega) (by omega)

/-- So is a character in ASCII that ends no literal. -/
theorem literalEnd_passes (hc : c ≠ '\\' ∧ c ≠ '\n' ∧ c ≠ quote) :
    literalEnd (u ++ c :: v) quote (byteLength u) =
      literalEnd (u ++ c :: v) quote (byteLength (u ++ [c])) := by
  by_cases hascii : IsAscii c
  · rw [literalEnd_of_some (byteAt?_append_ascii hascii u v), if_neg hc.1, if_neg hc.2.1,
      if_neg hc.2.2, byteLength_append_singleton, utf8Size_eq_one_iff.2 hascii]
  · exact literalEnd_wide hquote hascii (k := 0) (Nat.zero_le _)

/-- A backslash takes the first byte of the character behind it along, and the others follow. -/
theorem literalEnd_escape :
    literalEnd (u ++ '\\' :: c :: v) quote (byteLength u) =
      literalEnd (u ++ '\\' :: c :: v) quote (byteLength (u ++ ['\\', c])) := by
  rw [literalEnd_of_some (byteAt?_append_ascii (by decide) u (c :: v)), if_pos rfl]
  by_cases hascii : IsAscii c
  · rw [byteLength_append, byteLength_cons, byteLength_cons, utf8Size_eq_one_iff.2 hascii]
    rfl
  · have hwide := literalEnd_wide hquote hascii (u := u ++ ['\\']) (v := v) c.utf8Size_pos
    rw [byteLength_append u, ← List.append_cons, ← List.append_cons] at hwide
    exact hwide

theorem literalEnd_quote (hbackslash : quote ≠ '\\') (hnewline : quote ≠ '\n') :
    literalEnd (u ++ quote :: v) quote (byteLength u) = byteLength (u ++ [quote]) := by
  rw [literalEnd_of_some (byteAt?_append_ascii hquote u v), if_neg hbackslash, if_neg hnewline,
    if_pos rfl, byteLength_append_singleton, utf8Size_eq_one_iff.2 hquote]

omit hquote in
theorem literalEnd_newline : literalEnd (u ++ '\n' :: v) quote (byteLength u) = byteLength u := by
  rw [literalEnd_of_some (byteAt?_append_ascii (by decide) u v), if_neg (by decide), if_pos rfl]

omit hquote in
/-- A backslash at the end of the text takes along what is not there. -/
theorem literalEnd_backslash :
    literalEnd (u ++ ['\\']) quote (byteLength u) = byteLength (u ++ ['\\']) := by
  have hnone : byteAt? (u ++ ['\\']) (byteLength u + 2) = none :=
    byteAt?_of_le (by rw [byteLength_append]; exact Nat.le_succ _)
  rw [literalEnd_of_some (byteAt?_append_ascii (by decide) u []), if_pos rfl, literalEnd_of_none hnone]

omit hquote in
/-- A literal ends behind characters that the scan of the text reads as a literal, with code behind
it. -/
theorem exists_literalEnd (hquote : quote = '"' ∨ quote = '\'') (u cs : List Char) :
    ∃ inside rest, cs = inside ++ rest ∧
      literalEnd (u ++ cs) quote (byteLength u) = byteLength (u ++ inside) ∧
      (Scan.literal quote).Reads .literal inside rest := by
  have hascii : IsAscii quote := by rcases hquote with rfl | rfl <;> decide
  induction hn : cs.length using Nat.strongRecOn generalizing u cs with
  | ind n ih =>
    cases cs with
    | nil =>
      refine ⟨[], [], rfl, ?_, Scan.reads_nil _ _⟩
      rw [List.append_nil]
      exact literalEnd_of_none (byteAt?_of_le (Nat.le_refl _))
    | cons c cs =>
      by_cases hbackslash : c = '\\'
      · subst hbackslash
        cases cs with
        | nil =>
          exact ⟨['\\'], [], rfl, literalEnd_backslash, .cons rfl (Scan.reads_nil (.escape quote) _)⟩
        | cons d cs =>
          obtain ⟨inside, rest, rfl, hend, hreads⟩ := ih cs.length
            (by rw [← hn, List.length_cons, List.length_cons]; omega) (u ++ ['\\', d]) cs rfl
          refine ⟨'\\' :: d :: inside, rest, rfl, ?_, .cons rfl (.cons rfl hreads)⟩
          rw [literalEnd_escape hascii]
          simpa only [List.append_assoc, List.cons_append, List.nil_append] using hend
      by_cases hnewline : c = '\n'
      · subst hnewline
        refine ⟨[], '\n' :: cs, rfl, ?_, Scan.reads_nil_of_newline (fun _ => rfl) _ cs⟩
        rw [literalEnd_newline, List.append_nil]
      by_cases hclose : c = quote
      · subst hclose
        have hword : c.isAlphanum = false := by rcases hquote with rfl | rfl <;> rfl
        refine ⟨[c], cs, rfl, literalEnd_quote hascii hbackslash hnewline, Scan.reads_singleton ?_⟩
        rw [Scan.step, if_neg hbackslash, if_neg hnewline, if_pos rfl, hword]
      · obtain ⟨inside, rest, rfl, hend, hreads⟩ := ih cs.length
          (by rw [← hn, List.length_cons]; omega) (u ++ [c]) cs rfl
        refine ⟨c :: inside, rest, rfl, ?_, .cons ?_ hreads⟩
        · rw [literalEnd_passes hascii ⟨hbackslash, hnewline, hclose⟩]
          simpa only [List.append_assoc, List.cons_append, List.nil_append] using hend
        · rw [Scan.step, if_neg hbackslash, if_neg hnewline, if_neg hclose]

end Literal

/-! ## Reading at a position -/

/-- No literal is opened inside a character that is none in ASCII. -/
theorem opensLiteral_of_wide {text : List Char} {i : Nat} {b : Char} (hb : byteAt? text i = some b)
    (hwide : ¬ IsAscii b) : opensLiteral text i = false := by
  have hne : ∀ {d : Char}, IsAscii d → b ≠ d := fun hd hbd => hwide (hbd ▸ hd)
  simp [opensLiteral, hb, hne (d := '"') (by decide), hne (d := '\'') (by decide)]

/-- Between characters the bytes around a position tell as much as the characters do. -/
theorem opensLiteral_append (u : List Char) (c : Char) (cs : List Char) :
    opensLiteral (u ++ c :: cs) (byteLength u) = Scan.opensLiteral (endsWord u) c := by
  have hbyte : ∀ {d : Char}, IsAscii d →
      (byteAt? (u ++ c :: cs) (byteLength u) = some d ↔ c = d) := fun hd => by
    rw [byteAt?_append_eq_some_iff hd, List.head?_cons, Option.some_inj]
  have hbefore : (decide (0 < byteLength u) &&
      (byteAt? (u ++ c :: cs) (byteLength u - 1)).any Char.isAlphanum) = endsWord u := by
    by_cases hu : u = []
    · subst hu
      rfl
    · have hpos : 0 < byteLength u := byteLength_pos hu
      rw [any_byteAt?_before hu, decide_eq_true hpos, Bool.true_and]
  rw [opensLiteral, Scan.opensLiteral, hbefore, decide_eq_decide.2 (hbyte (by decide)),
    decide_eq_decide.2 (hbyte (by decide))]

section Rounds

variable {text : List Char} {s : ByteScan} {b : Char} (hb : byteAt? text s.pos = some b)
include hb

theorem round?_literal (h : opensLiteral text s.pos = true) :
    s.round? text = some { s with pos := literalEnd text b (s.pos + 1) } := by
  simp only [round?, hb, h]
  rfl

theorem round?_passes (h : opensLiteral text s.pos = false)
    (hslash : b = '/' → byteAt? text (s.pos + 1) ≠ some '/' ∧ byteAt? text (s.pos + 1) ≠ some '*') :
    s.round? text = some { s with pos := s.pos + 1 } := by
  have hline : ¬ (b = '/' && byteAt? text (s.pos + 1) = some '/') = true := by
    simpa using fun hslash' => (hslash hslash').1
  have hblock : ¬ (b = '/' && byteAt? text (s.pos + 1) = some '*') = true := by
    simpa using fun hslash' => (hslash hslash').2
  simp only [round?, hb, h, Option.bind_some, Option.bind_eq_bind]
  rw [if_neg Bool.false_ne_true, if_neg hline, if_neg hblock]
  rfl

variable {kept ahead : List Char} (hslash : b = '/') (hkept : slice? text s.copied s.pos = some kept)
include hslash hkept

theorem round?_lineComment (h : opensLiteral text s.pos = false)
    (hnext : byteAt? text (s.pos + 1) = some '/')
    (hahead : slice? text s.pos (byteLength text) = some ahead) {stop : Nat}
    (hstop : (offsetOf? ['\n'] ahead).elim (byteLength text) (s.pos + ·) = stop) :
    s.round? text = some ⟨stop, stop, s.out ++ kept⟩ := by
  subst hslash hstop
  simp only [round?, hb, h, hnext, hkept, hahead, Option.bind_some, Option.bind_eq_bind]
  rfl

theorem round?_blockComment (h : opensLiteral text s.pos = false)
    (hnext : byteAt? text (s.pos + 1) = some '*')
    (hahead : slice? text (s.pos + 2) (byteLength text) = some ahead) {stop : Nat}
    (hstop : (offsetOf? ['*', '/'] ahead).elim (byteLength text) (s.pos + 2 + · + 2) = stop)
    {comment : List Char} (hcomment : slice? text s.pos stop = some comment) :
    s.round? text = some ⟨stop, stop, s.out ++ kept ++ comment.filter (· = '\n')⟩ := by
  subst hslash hstop
  simp only [round?, hb, h, hnext, hkept, hahead, hcomment, Option.bind_some, Option.bind_eq_bind]
  rfl

end Rounds

/-! ## The end of a comment -/

/-- Behind a slash, a line comment goes on up to the next newline. -/
theorem exists_lineEnd (u cs : List Char) :
    ∃ note rest, cs = note ++ rest ∧ '\n' ∉ note ∧ StartsLine rest ∧
      (offsetOf? ['\n'] ('/' :: cs)).elim (byteLength (u ++ '/' :: cs)) (byteLength u + ·) =
        byteLength (u ++ '/' :: note) := by
  have hskip : offsetOf? ['\n'] ('/' :: cs) = (offsetOf? ['\n'] cs).map ('/'.utf8Size + ·) := rfl
  rw [hskip]
  rcases hfind : offsetOf? ['\n'] cs with _ | n
  · have hnone := not_isInfix_of_offsetOf?_eq_none (by decide) hfind
    rw [List.singleton_infix_iff] at hnone
    exact ⟨cs, [], (List.append_nil cs).symm, hnone, nofun, rfl⟩
  · obtain ⟨note, behind, rfl, rfl, hnone⟩ := exists_of_offsetOf? (by decide) hfind
    rw [List.singleton_infix_iff] at hnone
    refine ⟨note, '\n' :: behind, List.append_assoc _ _ _, hnone, startsLine_newline behind, ?_⟩
    rw [Option.map_some, Option.elim_some, byteLength_append, byteLength_cons]

/-- Behind the star that opens it, a block comment goes on up to the first place that closes it. -/
theorem exists_commentEnd (u cs : List Char) :
    ∃ note rest, cs = note ++ rest ∧ (Scan.blockComment false).Reads .comment note rest ∧
      (offsetOf? ['*', '/'] cs).elim (byteLength (u ++ cs)) (byteLength u + · + 2) =
        byteLength (u ++ note) := by
  rcases hfind : offsetOf? ['*', '/'] cs with _ | n
  · have hnone := not_isInfix_of_offsetOf?_eq_none (by decide) hfind
    refine ⟨cs, [], (List.append_nil cs).symm, ?_, rfl⟩
    have hreads : (Scan.blockComment false).Reads .comment (cs ++ []) [] :=
      Scan.reads_blockComment hnone nofun fun _ => Scan.reads_nil _ _
    rwa [List.append_nil] at hreads
  · obtain ⟨note, behind, rfl, rfl, hnone⟩ := exists_of_offsetOf? (by decide) hfind
    refine ⟨note ++ ['*', '/'], behind, rfl, ?_, ?_⟩
    · exact Scan.reads_blockComment hnone nofun fun star => Scan.reads_blockComment_close star behind
    · rw [Option.elim_some, byteLength_append, byteLength_append, ← Nat.add_assoc]
      rfl

end ByteScan

end ChaiBind.Text
