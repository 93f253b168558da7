import ChaiBind.Proofs.Text.ByteRounds
import ChaiBind.Proofs.Text.TopLevelBrackets

/-!
# Bytes of literals

Comments are stripped by a scan of bytes, and a text is cut at top level by reading its characters.
Each has its own notion of a literal. The scan of bytes jumps from a quote to where the literal ends,
and the other reading knows for each character whether it is in a literal. A newline ends a literal
for the one only, and a quote in a comment opens one for the other only. Where there is neither, what
the one has read is what the other has read but for the depth (`Nesting.scan`), so that they agree on
every byte.

* `ByteScan.inLiteral_iff_layerAt?`: the bytes of literals are those of the layer.
* `inLiteral_iff_nesting`: the two readings have the same literals.
-/

namespace ChaiBind.Text

/-- The byte lies between a quote that the scan of bytes comes to and the end of the literal that it
opens. -/
def ByteScan.InLiteral (text : List Char) (i : Nat) : Prop :=
  ∃ n s quote, Reached text n s ∧ opensLiteral text s.pos = true ∧ byteAt? text s.pos = some quote ∧
    s.pos ≤ i ∧ i < literalEnd text quote (s.pos + 1)

/-- The byte belongs to a character that is in a literal for cutting at top level: one that it is
read in, or one that the character opens. -/
def Nesting.InLiteral (sep : Char) (text : List Char) (i : Nat) : Prop :=
  ∃ u c v, text = u ++ c :: v ∧ byteLength u ≤ i ∧ i < byteLength (u ++ [c]) ∧
    ¬ ((start.after sep u).inCode ∧ (start.after sep (u ++ [c])).inCode)

/-! ## Literals of the scan of bytes -/

namespace ByteScan

theorem InLiteral.lt_byteLength {text : List Char} {i : Nat} (h : InLiteral text i) :
    i < byteLength text := by
  obtain ⟨n, s, quote, hreached, hopen, hquote, -, hlt⟩ := h
  have hbehind := hreached.round (lt_of_byteAt? hquote) (round?_literal hquote hopen)
  exact Nat.lt_of_lt_of_le hlt hbehind.within

/-- The bytes of literals are those of the layer. -/
theorem inLiteral_iff_layerAt? {text : List Char} {i : Nat} (hi : i < byteLength text) :
    InLiteral text i ↔ layerAt? (layers text) i = some .literal := by
  constructor
  · rintro ⟨n, s, quote, hreached, hopen, hquote, hle, hlt⟩
    obtain ⟨layer, hliteral, hlayer⟩ :=
      (hreached.advances (lt_of_byteAt? hquote) (round?_literal hquote hopen)).layer
    rw [hlayer i hle hlt, hliteral.2 hopen]
  · intro h
    obtain ⟨n, s, s', hreached, hround, hle, hlt⟩ := Reached.start.exists_round hi (Nat.zero_le i)
    have hahead : s.pos < byteLength text := Nat.lt_of_le_of_lt hle hi
    obtain ⟨layer, hliteral, hlayer⟩ := (hreached.advances hahead hround).layer
    have hopen : opensLiteral text s.pos = true :=
      hliteral.1 (Option.some.inj ((hlayer i hle hlt).symm.trans h))
    obtain ⟨quote, hquote⟩ := exists_byteAt? hahead
    obtain rfl := Option.some.inj (hround.symm.trans (round?_literal hquote hopen))
    exact ⟨n, s, quote, hreached, hopen, hquote, hle, hlt⟩

end ByteScan

/-! ## Literals in cutting at top level -/

namespace Nesting

/-- What has been read, without the depth. -/
def scan : Nesting → Scan
  | .code _ afterWord => .code afterWord
  | .literal _ quote => .literal quote
  | .escape _ quote => .escape quote

theorem inCode_iff {t : Nesting} : t.inCode = true ↔ ∃ afterWord, t.scan = .code afterWord := by
  cases t <;> simp [inCode, scan]

theorem scan_step_code (sep : Char) (depth : Int) {afterWord : Bool} {c : Char}
    (h : Scan.opensLiteral afterWord c = false) :
    ((code depth afterWord).step sep c).2.scan = .code c.isAlphanum := by
  have hquote : ¬ (c = '"' || (c = '\'' && !afterWord)) = true := Bool.eq_false_iff.1 h
  rw [step, if_neg hquote]
  split_ifs with hopen hclose
  · simp only [isOpening, Bool.or_eq_true, decide_eq_true_eq] at hopen
    rcases hopen with ((rfl | rfl) | rfl) | rfl <;> rfl
  · simp only [isClosing, Bool.or_eq_true, decide_eq_true_eq] at hclose
    rcases hclose with ((rfl | rfl) | rfl) | rfl <;> rfl
  · rfl

/-- A character other than a newline, and in no comment, is read in the same way. -/
theorem scan_step (sep : Char) (t : Nesting) {c : Char} {next : Option Char} (hc : c ≠ '\n')
    (hcomment : (t.scan.step c next).1 ≠ .comment) :
    (t.scan.step c next).2 = (t.step sep c).2.scan ∧
      ((t.scan.step c next).1 = .literal ↔ ¬ (t.inCode ∧ (t.step sep c).2.inCode)) := by
  cases t with
  | literal depth quote =>
    rw [scan, step, Scan.step]
    split_ifs <;> simp [scan, inCode]
  | escape depth quote => exact ⟨rfl, by simp [scan, Scan.step, inCode]⟩
  | code depth afterWord =>
    cases hquote : Scan.opensLiteral afterWord c with
    | true =>
      have hstep : (code depth afterWord).step sep c = (false, .literal depth c) := if_pos hquote
      have hscan : (Scan.code afterWord).step c next = (.literal, .literal c) := if_pos hquote
      rw [hstep, scan, hscan]
      exact ⟨rfl, by simp [inCode]⟩
    | false =>
      have hslash : c = '/' → ¬ Scan.Opens next := fun hc hnext =>
        hcomment (Scan.step_code_eq_comment_iff.2 ⟨hc, hnext⟩)
      have hscan : (Scan.code afterWord).step c next = (.code, .code c.isAlphanum) :=
        Scan.step_code hquote hslash
      have hstep := scan_step_code sep depth hquote
      have hcode : ((code depth afterWord).step sep c).2.inCode = true :=
        inCode_iff.2 ⟨_, hstep⟩
      have hlayer : Layer.code ≠ .literal := by decide
      rw [scan, hscan, hstep]
      exact ⟨rfl, iff_of_false hlayer (not_not_intro ⟨rfl, hcode⟩)⟩

/-- So is a text without newlines and comments. -/
theorem scan_after (sep : Char) (t : Nesting) {u : List Char} {next : Option Char}
    (hnewline : '\n' ∉ u) (hcomment : ∀ x ∈ layersPart t.scan u next, x.1 ≠ .comment) :
    t.scan.after u next = (t.after sep u).scan := by
  induction u generalizing t with
  | nil => rfl
  | cons c u ih =>
    rw [List.mem_cons, not_or] at hnewline
    rw [layersPart_cons, List.forall_mem_cons] at hcomment
    have hstep := (scan_step sep t (Ne.symm hnewline.1) hcomment.1).1
    have hafter : t.after sep (c :: u) = (t.step sep c).2.after sep u := rfl
    rw [hstep] at hcomment
    rw [Scan.after_cons, hstep, hafter, ih _ hnewline.2 hcomment.2]

end Nesting

/-- A character is in a literal for the one reading as it is for the other. -/
theorem layer_eq_literal_iff (sep : Char) {u v : List Char} {c : Char} (hnewline : '\n' ∉ u ++ c :: v)
    (hcomment : ∀ x ∈ layers (u ++ c :: v), x.1 ≠ .comment) :
    ((Scan.start.after u (some c)).step c v.head?).1 = .literal ↔
      ¬ ((Nesting.start.after sep u).inCode ∧ (Nesting.start.after sep (u ++ [c])).inCode) := by
  rw [List.mem_append, List.mem_cons, not_or, not_or] at hnewline
  rw [layers, layersFrom_append, List.forall_mem_append, layersFrom, List.forall_mem_cons] at hcomment
  have hafter : Scan.start.after u (some c) = (Nesting.start.after sep u).scan :=
    Nesting.scan_after sep .start hnewline.1 hcomment.1
  have hnext : Nesting.start.after sep (u ++ [c]) = ((Nesting.start.after sep u).step sep c).2 := by
    rw [Nesting.after, List.foldl_append]
    rfl
  have hstep := hcomment.2.1
  rw [List.head?_cons, hafter] at hstep
  rw [hafter, hnext]
  exact (Nesting.scan_step sep _ (Ne.symm hnewline.2.1) hstep).2

/-- In a text without newlines and comments, the literals between which comments are sought are those
between which the text is cut, byte by byte: also where a literal does not end, a backslash comes
before a character of several bytes, or a quote separates digits. -/
theorem inLiteral_iff_nesting (sep : Char) {text : List Char} (hnewline : '\n' ∉ text)
    (hcomment : ∀ x ∈ layers text, x.1 ≠ .comment) (i : Nat) :
    ByteScan.InLiteral text i ↔ Nesting.InLiteral sep text i := by
  constructor
  · intro h
    have hi := h.lt_byteLength
    obtain ⟨u, c, v, rfl, hle, hlt⟩ := exists_char_of_lt hi
    rw [ByteScan.inLiteral_iff_layerAt? hi, layerAt?_char hle hlt, Option.some_inj,
      layer_eq_literal_iff sep hnewline hcomment] at h
    exact ⟨u, c, v, rfl, hle, hlt, h⟩
  · rintro ⟨u, c, v, rfl, hle, hlt, hliteral⟩
    have hi : i < byteLength (u ++ c :: v) := by
      rw [List.append_cons, byteLength_append _ v]
      omega
    rwa [ByteScan.inLiteral_iff_layerAt? hi, layerAt?_char hle hlt, Option.some_inj,
      layer_eq_literal_iff sep hnewline hcomment]

/-- The second byte of a character behind a backslash, a quote between digits, and the last byte of a
literal that does not end. -/
theorem inLiteral_iff_nesting_wide :
    let text := "f('\\é', 1'0, \"\\\"é".toList
    '\n' ∉ text ∧ (∀ x ∈ layers text, x.1 ≠ .comment) ∧
      (ByteScan.InLiteral text 5 ∧ Nesting.InLiteral ',' text 5) ∧
      (¬ ByteScan.InLiteral text 10 ∧ ¬ Nesting.InLiteral ',' text 10) ∧
      (ByteScan.InLiteral text 18 ∧ Nesting.InLiteral ',' text 18) := by
  intro text
  have hnewline : '\n' ∉ text := by decide
  have hcomment : ∀ x ∈ layers text, x.1 ≠ .comment := by decide
  have hagree := inLiteral_iff_nesting ',' hnewline hcomment
  have hescaped : ByteScan.InLiteral text 5 :=
    (ByteScan.inLiteral_iff_layerAt? (by decide)).2 (by decide)
  have hdigits : ¬ ByteScan.InLiteral text 10 :=
    mt (ByteScan.inLiteral_iff_layerAt? (by decide)).1 (by decide)
  have hlast : ByteScan.InLiteral text 18 :=
    (ByteScan.inLiteral_iff_layerAt? (by decide)).2 (by decide)
  exact ⟨hnewline, hcomment, ⟨hescaped, (hagree 5).1 hescaped⟩, ⟨hdigits, mt (hagree 10).2 hdigits⟩,
    hlast, (hagree 18).1 hlast⟩

end ChaiBind.Text
