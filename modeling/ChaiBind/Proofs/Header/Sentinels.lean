import ChaiBind.Header.Unit
import ChaiBind.Proofs.Text.Pieces
import Mathlib.Data.List.Infix

/-!
# Sentinels in a text

A text is scriptable if one of its lines is the sentinel, that is if the sentinel stands in it with
newlines around it (`HidesSentinel`), the text itself being taken between two newlines
(`isScriptable_iff_hidesSentinel`). A sentinel has no other characters than those of
`sentinelChars`, so that text on one line with any other character bars it (`Bars`).

* `hidesSentinel_append_cons`: a text that such a character cuts in two.
* `isScriptable_between`: a text between two that bar sentinels.
* `hidesSentinel_twice`: a text that is written twice.
-/

namespace ChaiBind.Header

open Text

/-! ## The line of a sentinel -/

/-- The characters of a sentinel, its spaces and its line endings. -/
def sentinelChars : List Char :=
  ['\t', ' ', '/', '=', 'S', 'C', 'R', 'I', 'P', 'T', 'A', 'B', 'L', 'E', '\r', '\n']

theorem exists_append_dropSpaces (cs : List Char) :
    ∃ spaces, (∀ c ∈ spaces, isSpaceOrTab c) ∧ cs = spaces ++ dropSpaces cs :=
  ⟨cs.takeWhile isSpaceOrTab, fun _ hc => List.mem_takeWhile_imp hc,
    List.takeWhile_append_dropWhile.symm⟩

/-- The parts of a sentinel. -/
theorem exists_of_isSentinel {line : List Char} (h : isSentinel line) :
    ∃ a b c ending, (∀ x ∈ a ++ (b ++ c), isSpaceOrTab x) ∧ (ending = [] ∨ ending = ['\r']) ∧
      line = a ++ ("//=".toList ++ (b ++ ("SCRIPTABLE".toList ++ (c ++ ending)))) := by
  unfold isSentinel at h
  split at h
  · cases h
  · rename_i rest hopen
    split at h
    · cases h
    · rename_i rest' hword
      rw [Bool.or_eq_true, decide_eq_true_eq, decide_eq_true_eq] at h
      obtain ⟨a, ha, hline⟩ := exists_append_dropSpaces line
      obtain ⟨b, hb, hrest⟩ := exists_append_dropSpaces rest
      obtain ⟨c, hc, hrest'⟩ := exists_append_dropSpaces rest'
      refine ⟨a, b, c, dropSpaces rest', ?_, h, ?_⟩
      · simp only [List.forall_mem_append]
        exact ⟨ha, hb, hc⟩
      · rw [← hrest', List.isPrefixOf?_eq_some_iff_append_eq.1 hword, ← hrest,
          List.isPrefixOf?_eq_some_iff_append_eq.1 hopen, ← hline]

/-- What a sentinel is made of. -/
theorem mem_of_isSentinel {line : List Char} (h : isSentinel line) {x : Char} (hx : x ∈ line) :
    x ∈ "//=SCRIPTABLE \t\r".toList := by
  obtain ⟨a, b, c, ending, hspaces, hending, rfl⟩ := exists_of_isSentinel h
  have hspace : isSpaceOrTab x → x ∈ "//=SCRIPTABLE \t\r".toList := by
    simp only [isSpaceOrTab, Bool.or_eq_true, decide_eq_true_eq]
    rintro (rfl | rfl) <;> decide
  have hsubset : "//=".toList ++ "SCRIPTABLE".toList ++ ['\r'] ⊆ "//=SCRIPTABLE \t\r".toList := by
    decide
  grind

theorem newline_notMem_of_isSentinel {line : List Char} (h : isSentinel line) : '\n' ∉ line :=
  fun hmem => absurd (mem_of_isSentinel h hmem) (by decide)

/-! ## Sentinels inside a text -/

/-- A sentinel stands in a text, with a newline before it and one behind it. -/
def HidesSentinel (cs : List Char) : Prop :=
  ∃ line, isSentinel line ∧ '\n' :: (line ++ ['\n']) <:+: cs

theorem HidesSentinel.mono {cs ds : List Char} (h : HidesSentinel cs) (hds : cs <:+: ds) :
    HidesSentinel ds := by
  obtain ⟨line, hline, hcs⟩ := h
  exact ⟨line, hline, hcs.trans hds⟩

theorem isScriptable_append_newline (u v : List Char) :
    isScriptable (u ++ '\n' :: v) = (isScriptable u || isScriptable v) := by
  rw [isScriptable, splitLines_append_newline, List.any_append, isScriptable, isScriptable]

theorem isScriptable_of_notMem {cs : List Char} (h : '\n' ∉ cs) :
    isScriptable cs = isSentinel cs := by
  have hpieces : splitLines cs = [cs] :=
    pieces_of_forall fun c hc => decide_eq_false fun heq => h (heq ▸ hc)
  rw [isScriptable, hpieces, List.any_cons, List.any_nil, Bool.or_false]

/-- A text is scriptable if a sentinel stands in it between newlines, of which there is one around
the text. -/
theorem isScriptable_iff_hidesSentinel (cs : List Char) :
    isScriptable cs ↔ HidesSentinel ('\n' :: (cs ++ ['\n'])) := by
  have hnil : isScriptable [] = false := by decide
  have hframe : isScriptable ('\n' :: (cs ++ ['\n'])) = isScriptable cs := by
    rw [← List.nil_append ('\n' :: _), isScriptable_append_newline, isScriptable_append_newline,
      hnil, Bool.false_or, Bool.or_false]
  constructor
  · intro h
    obtain ⟨line, hline, hsentinel⟩ := List.any_eq_true.1 h
    obtain ⟨above, below, hlines⟩ := List.append_of_mem hline
    refine ⟨line, hsentinel, ?_⟩
    have hcs : cs = ['\n'].intercalate (above ++ line :: below) := by
      rw [← hlines]
      exact (intercalate_pieces '\n' cs).symm
    -- the newline before the line is that of the line above, or the one in front of the text
    obtain ⟨before, hbefore⟩ : ∃ before,
        '\n' :: above.flatMap (· ++ ['\n']) = before ++ ['\n'] := by
      rcases above.eq_nil_or_concat' with rfl | ⟨above, last, rfl⟩
      · exact ⟨[], rfl⟩
      · exact ⟨'\n' :: (above.flatMap (· ++ ['\n']) ++ last), by simp⟩
    refine ⟨before, below.flatMap (· ++ ['\n']), ?_⟩
    rw [hcs, intercalate_append_sep (by simp), List.flatMap_append, List.flatMap_cons]
    have htext := congrArg (· ++ (line ++ ['\n'] ++ below.flatMap (· ++ ['\n']))) hbefore
    simpa using htext.symm
  · rintro ⟨line, hsentinel, before, after, htext⟩
    rw [← hframe, ← htext, List.append_assoc, List.cons_append, isScriptable_append_newline,
      List.append_assoc, List.singleton_append, isScriptable_append_newline,
      isScriptable_of_notMem (newline_notMem_of_isSentinel hsentinel), hsentinel, Bool.true_or,
      Bool.or_true]

/-! ## Text around a text -/

theorem eq_nil_of_isPrefix_cons {α : Type} {w v : List α} {d : α} (hd : d ∉ w)
    (h : w <+: d :: v) : w = [] := by
  cases w with
  | nil => rfl
  | cons c w =>
    obtain ⟨rfl, -⟩ := List.cons_prefix_cons.1 h
    exact absurd List.mem_cons_self hd

/-- What does not hold a character stands on one side of it. -/
theorem isInfix_append_cons_iff {α : Type} {w u v : List α} {d : α} (hd : d ∉ w) :
    w <:+: u ++ d :: v ↔ w <:+: u ∨ w <:+: v := by
  constructor
  · intro h
    rcases List.infix_append_iff.1 h with h | h | ⟨x, y, rfl, hx, hy⟩
    · exact .inl h
    · rcases List.infix_cons_iff.1 h with h | h
      · rw [eq_nil_of_isPrefix_cons hd h]
        exact .inl (List.nil_infix)
      · exact .inr h
    · rw [List.mem_append, not_or] at hd
      rw [eq_nil_of_isPrefix_cons hd.2 hy, List.append_nil]
      exact .inl hx.isInfix
  · rintro (h | h)
    · exact h.trans (List.prefix_append u _).isInfix
    · exact h.trans ⟨u ++ [d], [], by simp⟩

theorem mem_sentinelChars {line : List Char} (h : isSentinel line) {c : Char}
    (hc : c ∈ '\n' :: (line ++ ['\n'])) : c ∈ sentinelChars := by
  have hsubset : "//=SCRIPTABLE \t\r".toList ++ ['\n'] ⊆ sentinelChars := by decide
  have hline : line ⊆ "//=SCRIPTABLE \t\r".toList := fun _ => mem_of_isSentinel h
  grind

/-- A character that no sentinel has keeps sentinels on its two sides. -/
theorem hidesSentinel_append_cons {d : Char} (hd : d ∉ sentinelChars) (u v : List Char) :
    HidesSentinel (u ++ d :: v) ↔ HidesSentinel u ∨ HidesSentinel v := by
  simp only [HidesSentinel, ← exists_or, ← and_or_left]
  refine exists_congr fun line => and_congr_right fun hline => ?_
  exact isInfix_append_cons_iff fun hmem => hd (mem_sentinelChars hline hmem)

/-- Newlines in front of a text and behind it are needed. -/
theorem not_hidesSentinel_of_count {cs : List Char} (h : cs.count '\n' ≤ 1) :
    ¬ HidesSentinel cs := by
  rintro ⟨line, -, hcs⟩
  have hcount := hcs.sublist.count_le '\n'
  simp only [List.count_cons, List.count_append, List.count_nil, beq_self_eq_true,
    if_true] at hcount
  omega

/-- Text without a newline, in front of a text or behind it, adds no sentinel. -/
theorem hidesSentinel_between {u v : List Char} (hu : '\n' ∉ u) (hv : '\n' ∉ v) (cs : List Char) :
    HidesSentinel (u ++ (cs ++ v)) ↔ HidesSentinel cs := by
  have hfront : ∀ {line : List Char}, '\n' :: (line ++ ['\n']) <:+: u ++ (cs ++ v) →
      '\n' :: (line ++ ['\n']) <:+: cs ++ v := by
    intro line h
    rcases List.infix_append_iff.1 h with h | h | ⟨x, y, hw, hx, hy⟩
    · exact absurd (h.subset List.mem_cons_self) hu
    · exact h
    · cases x with
      | nil =>
        rw [hw, List.nil_append]
        exact hy.isInfix
      | cons c x =>
        obtain ⟨rfl, -⟩ := List.cons.inj hw
        exact absurd (hx.subset List.mem_cons_self) hu
  have hback : ∀ {line : List Char}, '\n' :: (line ++ ['\n']) <:+: cs ++ v →
      '\n' :: (line ++ ['\n']) <:+: cs := by
    intro line h
    rcases List.infix_append_iff.1 h with h | h | ⟨x, y, hw, hx, hy⟩
    · exact h
    · exact absurd (h.subset List.mem_cons_self) hv
    · rcases y.eq_nil_or_concat' with rfl | ⟨y, c, rfl⟩
      · rw [hw, List.append_nil]
        exact hx.isInfix
      · rw [← List.cons_append, ← List.append_assoc] at hw
        obtain ⟨-, hlast⟩ := List.append_inj' hw rfl
        obtain ⟨rfl, -⟩ := List.cons.inj hlast
        exact absurd (hy.subset (List.mem_append_right y List.mem_cons_self)) hv
  constructor
  · rintro ⟨line, hline, h⟩
    exact ⟨line, hline, hback (hfront h)⟩
  · exact fun h => h.mono ⟨u, v, List.append_assoc u cs v⟩

/-! ## Frames -/

/-- A text on one line that holds a character that no sentinel has. -/
structure Bars (u : List Char) : Prop where
  oneLine : '\n' ∉ u
  foreign : ∃ d ∈ u, d ∉ sentinelChars

/-- Computed by tests on characters, which stay small on a long text. -/
instance (u : List Char) : Decidable (Bars u) :=
  decidable_of_iff (!u.contains '\n' && u.any fun d => !sentinelChars.contains d) <| by
    simp only [Bool.and_eq_true, Bool.not_eq_true', List.contains_eq_mem, decide_eq_false_iff_not,
      List.any_eq_true]
    exact ⟨fun ⟨honeLine, hforeign⟩ => ⟨honeLine, hforeign⟩, fun h => ⟨h.oneLine, h.foreign⟩⟩

theorem Bars.append {u v : List Char} (hu : Bars u) (hv : '\n' ∉ v) : Bars (u ++ v) := by
  obtain ⟨d, hd, hforeign⟩ := hu.foreign
  refine ⟨?_, d, List.mem_append_left v hd, hforeign⟩
  rw [List.mem_append, not_or]
  exact ⟨hu.oneLine, hv⟩

theorem Bars.append_left {u v : List Char} (hu : '\n' ∉ u) (hv : Bars v) : Bars (u ++ v) := by
  obtain ⟨d, hd, hforeign⟩ := hv.foreign
  refine ⟨?_, d, List.mem_append_right u hd, hforeign⟩
  rw [List.mem_append, not_or]
  exact ⟨hu, hv.oneLine⟩

theorem Bars.isScriptable_eq_false {u : List Char} (h : Bars u) : isScriptable u = false := by
  rw [isScriptable_of_notMem h.oneLine, Bool.eq_false_iff]
  obtain ⟨d, hd, hforeign⟩ := h.foreign
  exact fun hline => hforeign (mem_sentinelChars hline
    (List.mem_cons_of_mem _ (List.mem_append_left _ hd)))

/-- Between two texts that bar sentinels, a text is on lines of its own but for its first and its
last one. -/
theorem isScriptable_between {u v : List Char} (hu : Bars u) (hv : Bars v) (cs : List Char) :
    isScriptable (u ++ (cs ++ v)) ↔ HidesSentinel cs := by
  obtain ⟨d, hd, hforeign⟩ := hu.foreign
  obtain ⟨d', hd', hforeign'⟩ := hv.foreign
  obtain ⟨u, u', rfl⟩ := List.append_of_mem hd
  obtain ⟨v, v', rfl⟩ := List.append_of_mem hd'
  have hu' := hu.oneLine
  have hv' := hv.oneLine
  simp only [List.mem_append, List.mem_cons, not_or] at hu' hv'
  have hstart : ¬ HidesSentinel ('\n' :: u) :=
    not_hidesSentinel_of_count (by simp [List.count_eq_zero.2 hu'.1])
  have hend : ¬ HidesSentinel (v' ++ ['\n']) :=
    not_hidesSentinel_of_count (by simp [List.count_eq_zero.2 hv'.2.2])
  have htext : '\n' :: (u ++ d :: u' ++ (cs ++ (v ++ d' :: v')) ++ ['\n']) =
      '\n' :: u ++ d :: (u' ++ (cs ++ v) ++ d' :: (v' ++ ['\n'])) := by
    simp
  rw [isScriptable_iff_hidesSentinel, htext, hidesSentinel_append_cons hforeign,
    hidesSentinel_append_cons hforeign', hidesSentinel_between hu'.2.2 hv'.1]
  simp only [hstart, hend, false_or, or_false]

/-- A text that stands twice, with text between that bars sentinels. -/
theorem hidesSentinel_twice {m : List Char} (hm : Bars m) (cs : List Char) :
    HidesSentinel (cs ++ (m ++ cs)) ↔ HidesSentinel cs := by
  obtain ⟨d, hd, hforeign⟩ := hm.foreign
  obtain ⟨m, m', rfl⟩ := List.append_of_mem hd
  have hm' := hm.oneLine
  simp only [List.mem_append, List.mem_cons, not_or] at hm'
  have htext : cs ++ (m ++ d :: m' ++ cs) = cs ++ m ++ d :: (m' ++ cs) := by
    simp
  have hfirst := hidesSentinel_between (List.not_mem_nil (a := '\n')) hm'.1 cs
  have hsecond := hidesSentinel_between hm'.2.2 (List.not_mem_nil (a := '\n')) cs
  rw [List.nil_append] at hfirst
  rw [List.append_nil] at hsecond
  rw [htext, hidesSentinel_append_cons hforeign, hfirst, hsecond, or_self]

end ChaiBind.Header
