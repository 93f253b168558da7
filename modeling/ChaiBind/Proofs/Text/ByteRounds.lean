import ChaiBind.Proofs.Text.ByteScan

/-!
# Rounds of the byte scan

Between two rounds the scan of bytes stands in code, or inside a character of the code that is none
in ASCII (`ByteScan.Stands`). What it has copied and dropped ends between characters at any time, so
that every slice can be taken, though the position itself may lie inside a character.

* `Stands.round`: a round succeeds, moves on and stays within the text.
* `reached_spec`: the rounds end, and leave the text without comments.
-/

namespace ChaiBind.Text.ByteScan

/-! ## Where the scan stands -/

/-- The scan has dropped or copied `done` and goes on to copy `kept`, in code: at `rest`, or `k` bytes
into its first character, which is none in ASCII. -/
structure Stands (text : List Char) (s : ByteScan) (done kept rest : List Char) (k : Nat) : Prop where
  text_eq : text = done ++ kept ++ rest
  copied : s.copied = byteLength done
  pos : s.pos = byteLength (done ++ kept) + k
  inside : k = 0 ∨ ∃ c cs, rest = c :: cs ∧ ¬ IsAscii c ∧ k < c.utf8Size
  out : s.out ++ kept = stripPart .start (done ++ kept) rest.head?
  code : (Scan.start.after (done ++ kept) rest.head?).AtCode (endsWord (done ++ kept)) rest

theorem stands_start (text : List Char) : Stands text .start [] [] text 0 where
  text_eq := rfl
  copied := rfl
  pos := rfl
  inside := .inl rfl
  out := rfl
  code := Scan.atCode_code rfl text

namespace Stands

variable {text done kept rest u cs : List Char} {s : ByteScan} {k : Nat}

theorem within (h : Stands text s done kept rest k) : s.pos ≤ byteLength text := by
  rw [h.pos, h.text_eq, byteLength_append (done ++ kept)]
  rcases h.inside with rfl | ⟨c, cs, rfl, -, hk⟩
  · omega
  · rw [byteLength_cons]
    omega

/-- What has been passed over stays, outside comments. -/
theorem keeps (h : Stands text s done kept (u ++ rest) k) {layer : Layer} (hlayer : layer ≠ .comment)
    (hreads : (Scan.start.after (done ++ kept) (u ++ rest).head?).Reads layer u rest) :
    Stands text { s with pos := byteLength (done ++ (kept ++ u)) } done (kept ++ u) rest 0 where
  text_eq := by rw [h.text_eq, List.append_assoc, List.append_assoc, List.append_assoc]
  copied := h.copied
  pos := rfl
  inside := .inl rfl
  out := by
    rw [← List.append_assoc, ← List.append_assoc, stripPart_append, ← List.head?_append, ← h.out,
      hreads.stripPart_eq hlayer]
  code := by
    rw [← List.append_assoc, Scan.after_append, ← List.head?_append]
    exact hreads.behind _

/-- Of a comment the newlines stay. -/
theorem drops (h : Stands text s done kept (u ++ rest) k)
    (hreads : (Scan.start.after (done ++ kept) (u ++ rest).head?).Reads .comment u rest) :
    let n := byteLength (done ++ kept ++ u)
    Stands text ⟨n, n, s.out ++ kept ++ u.filter (· = '\n')⟩ (done ++ kept ++ u) [] rest 0 where
  text_eq := by rw [h.text_eq, List.append_nil, List.append_assoc _ u]
  copied := rfl
  pos := by rw [List.append_nil, Nat.add_zero]
  inside := .inl rfl
  out := by
    rw [List.append_nil, List.append_nil, stripPart_append, ← List.head?_append, ← h.out,
      hreads.stripPart_comment]
  code := by
    rw [List.append_nil, Scan.after_append, ← List.head?_append]
    exact hreads.behind _

theorem slice?_kept (h : Stands text s done kept rest 0) : slice? text s.copied s.pos = some kept := by
  rw [h.copied, h.pos]
  exact slice?_eq h.text_eq

/-- At the end of the text nothing is left to strip. -/
theorem finish?_eq (h : Stands text s done kept rest k) (hend : byteLength text ≤ s.pos) :
    s.finish? text = some (stripComments text) := by
  have hlength := congrArg byteLength h.text_eq
  rw [byteLength_append (done ++ kept)] at hlength
  obtain rfl : rest = [] := by
    by_contra hrest
    have hpos := byteLength_pos hrest
    rcases h.inside with rfl | ⟨c, cs, rfl, -, hk⟩
    · have := h.pos
      omega
    · have := h.pos
      rw [byteLength_cons] at hlength
      omega
  have hslice := slice?_end (h.text_eq.trans (List.append_nil _))
  rw [finish?, h.copied, hslice, stripComments, stripFrom_eq_stripPart, h.text_eq, List.append_nil]
  exact congrArg some h.out

end Stands

/-! ## One round -/

/-- A round moves on over bytes of one layer. They are a literal where a quote opens one. -/
structure Advances (text : List Char) (s s' : ByteScan) : Prop where
  moves : s.pos < s'.pos
  stands : ∃ done kept rest k, Stands text s' done kept rest k
  layer : ∃ layer, (layer = .literal ↔ opensLiteral text s.pos = true) ∧
    ∀ p, s.pos ≤ p → p < s'.pos → layerAt? (layers text) p = some layer

namespace Stands

variable {text done kept rest u cs : List Char} {s s' : ByteScan} {c : Char} {k : Nat}

theorem pos_lt (h : Stands text s done kept rest 0) (hu : u ≠ []) :
    s.pos < byteLength (done ++ kept ++ u) := by
  rw [h.pos, Nat.add_zero, byteLength_append (done ++ kept)]
  exact Nat.lt_add_of_pos_right (byteLength_pos hu)

/-- The bytes of a part ahead have its layer. -/
theorem layerAt?_eq (h : Stands text s done kept (u ++ rest) k) {layer : Layer}
    (hreads : (Scan.start.after (done ++ kept) (u ++ rest).head?).Reads layer u rest) {p : Nat}
    (hp : s.pos ≤ p) (hlt : p < byteLength (done ++ kept ++ u)) :
    layerAt? (layers text) p = some layer := by
  have hle : byteLength (done ++ kept) ≤ p := by
    have := h.pos
    omega
  obtain ⟨i, rfl⟩ := Nat.exists_eq_add_of_le hle
  rw [byteLength_append (done ++ kept)] at hlt
  rw [h.text_eq]
  exact layerAt?_of_reads hreads (by omega)

theorem advances_keeps (h : Stands text s done kept (u ++ rest) k) {layer : Layer}
    (hlayer : layer ≠ .comment)
    (hreads : (Scan.start.after (done ++ kept) (u ++ rest).head?).Reads layer u rest)
    (hliteral : layer = .literal ↔ opensLiteral text s.pos = true)
    (hmoves : s.pos < byteLength (done ++ kept ++ u)) :
    Advances text s { s with pos := byteLength (done ++ kept ++ u) } where
  moves := hmoves
  stands := by
    rw [List.append_assoc]
    exact ⟨_, _, _, _, h.keeps hlayer hreads⟩
  layer := ⟨layer, hliteral, fun _ hp hlt => h.layerAt?_eq hreads hp hlt⟩

theorem advances_drops (h : Stands text s done kept (u ++ rest) k)
    (hreads : (Scan.start.after (done ++ kept) (u ++ rest).head?).Reads .comment u rest)
    (hopen : opensLiteral text s.pos = false) (hmoves : s.pos < byteLength (done ++ kept ++ u)) :
    let n := byteLength (done ++ kept ++ u)
    Advances text s ⟨n, n, s.out ++ kept ++ u.filter (· = '\n')⟩ where
  moves := hmoves
  stands := ⟨_, _, _, _, h.drops hreads⟩
  layer := ⟨.comment, iff_of_false (by decide) (Bool.eq_false_iff.1 hopen),
    fun _ hp hlt => h.layerAt?_eq hreads hp hlt⟩

/-! ### Characters of the code -/

theorem byteLength_behind (h : Stands text s done kept (c :: cs) 0) (hc : IsAscii c) :
    byteLength (done ++ kept ++ [c]) = s.pos + 1 := by
  rw [byteLength_append_singleton, utf8Size_eq_one_iff.2 hc, h.pos, Nat.add_zero]

/-- The byte at the position is the character there, where this is in ASCII. -/
theorem byteAt?_pos (h : Stands text s done kept (c :: cs) 0) (hc : IsAscii c) :
    byteAt? text s.pos = some c := by
  rw [h.pos, h.text_eq]
  exact byteAt?_append_ascii hc _ cs

theorem byteAt?_next (h : Stands text s done kept (c :: cs) 0) (hc : IsAscii c) {d : Char}
    (hd : IsAscii d) : byteAt? text (s.pos + 1) = some d ↔ cs.head? = some d := by
  rw [← h.byteLength_behind hc, h.text_eq, List.append_cons, byteAt?_append_eq_some_iff hd]

theorem opensLiteral_pos (h : Stands text s done kept (c :: cs) 0) :
    opensLiteral text s.pos = Scan.opensLiteral (endsWord (done ++ kept)) c := by
  rw [h.pos, h.text_eq]
  exact opensLiteral_append _ c cs

/-- A byte of a character that is none in ASCII is stepped over. -/
theorem round_wide (h : Stands text s done kept (c :: cs) k) (hc : ¬ IsAscii c)
    (hk : k < c.utf8Size) : ∃ s', s.round? text = some s' ∧ Advances text s s' := by
  obtain ⟨b, hb, hwide⟩ := exists_byteAt?_wide hc hk cs
  rw [← byteAt?_append_add (done ++ kept), ← h.text_eq, ← h.pos] at hb
  have hopen : opensLiteral text s.pos = false := opensLiteral_of_wide hb hwide
  have hslash : b ≠ '/' := fun hbd => hwide (hbd ▸ by decide)
  have hreads : (Scan.start.after (done ++ kept) ([c] ++ cs).head?).Reads .code [c] cs := by
    refine Scan.reads_singleton (h.code.step_eq ?_ fun hcd => absurd (hcd ▸ by decide) hc)
    have hdouble : c ≠ '"' := fun hcd => hc (hcd ▸ by decide)
    have hsingle : c ≠ '\'' := fun hcd => hc (hcd ▸ by decide)
    simp [Scan.opensLiteral, hdouble, hsingle]
  have hliteral : Layer.code = .literal ↔ opensLiteral text s.pos = true :=
    iff_of_false (by decide) (Bool.eq_false_iff.1 hopen)
  have hbehind := byteLength_append_singleton (done ++ kept) c
  have hpos := h.pos
  refine ⟨_, round?_passes hb hopen fun hbd => absurd hbd hslash, ?_⟩
  rcases Nat.lt_or_ge (k + 1) c.utf8Size with hlt | hge
  · refine ⟨Nat.lt_succ_self _, ⟨done, kept, c :: cs, k + 1, { h with
      pos := congrArg (· + 1) hpos
      inside := .inr ⟨c, cs, rfl, hc, hlt⟩ }⟩, .code, hliteral, fun p hp hp' => ?_⟩
    refine h.layerAt?_eq (u := [c]) hreads hp ?_
    dsimp only at hp'
    omega
  · have hlast : s.pos + 1 = byteLength (done ++ kept ++ [c]) := by omega
    rw [hlast]
    exact h.advances_keeps (u := [c]) (by decide) hreads hliteral (by omega)

/-- So is a character in ASCII that opens nothing. -/
theorem round_code (h : Stands text s done kept (c :: cs) 0) (hc : IsAscii c)
    (hquote : Scan.opensLiteral (endsWord (done ++ kept)) c = false)
    (hslash : c = '/' → ¬ Scan.Opens cs.head?) :
    ∃ s', s.round? text = some s' ∧ Advances text s s' := by
  have hopen : opensLiteral text s.pos = false := h.opensLiteral_pos.trans hquote
  have hreads : (Scan.start.after (done ++ kept) ([c] ++ cs).head?).Reads .code [c] cs :=
    Scan.reads_singleton (h.code.step_eq hquote hslash)
  have hliteral : Layer.code = .literal ↔ opensLiteral text s.pos = true :=
    iff_of_false (by decide) (Bool.eq_false_iff.1 hopen)
  refine ⟨_, round?_passes (h.byteAt?_pos hc) hopen fun hcd => ?_, ?_⟩
  · rw [Ne, Ne, h.byteAt?_next hc (by decide), h.byteAt?_next hc (by decide)]
    exact not_or.1 (hslash hcd)
  · rw [← h.byteLength_behind hc]
    exact h.advances_keeps (u := [c]) (by decide) hreads hliteral (h.pos_lt (List.cons_ne_nil c []))

/-! ### Literals and comments -/

theorem round_literal (h : Stands text s done kept (c :: cs) 0)
    (hquote : Scan.opensLiteral (endsWord (done ++ kept)) c = true) :
    ∃ s', s.round? text = some s' ∧ Advances text s s' := by
  have hopen : opensLiteral text s.pos = true := h.opensLiteral_pos.trans hquote
  have hc : c = '"' ∨ c = '\'' := by
    simp only [Scan.opensLiteral, Bool.or_eq_true, Bool.and_eq_true, decide_eq_true_eq] at hquote
    exact hquote.imp_right And.left
  have hascii : IsAscii c := by rcases hc with rfl | rfl <;> decide
  have hnewline : c ≠ '\n' := by rcases hc with rfl | rfl <;> decide
  have hbehind := h.byteLength_behind hascii
  obtain ⟨inside, rest, rfl, hend, hreads⟩ := exists_literalEnd hc (done ++ kept ++ [c]) cs
  rw [← List.append_cons, ← h.text_eq, hbehind, ← List.append_cons] at hend
  have hreads : (Scan.start.after (done ++ kept) (c :: inside ++ rest).head?).Reads .literal
      (c :: inside) rest := by
    rw [List.cons_append, h.code.eq_code hnewline]
    exact .cons (if_pos hquote) hreads
  refine ⟨_, round?_literal (h.byteAt?_pos hascii) hopen, ?_⟩
  rw [hend]
  exact h.advances_keeps (by decide) hreads (iff_of_true rfl hopen) (h.pos_lt (List.cons_ne_nil c inside))

theorem round_lineComment (h : Stands text s done kept ('/' :: '/' :: cs) 0) :
    ∃ s', s.round? text = some s' ∧ Advances text s s' := by
  have hopen : opensLiteral text s.pos = false := h.opensLiteral_pos
  have hb : byteAt? text s.pos = some '/' := h.byteAt?_pos (by decide)
  have hnext : byteAt? text (s.pos + 1) = some '/' := (h.byteAt?_next (by decide) (by decide)).2 rfl
  have hpos : byteLength (done ++ kept) = s.pos := h.pos.symm
  have hahead : slice? text s.pos (byteLength text) = some ('/' :: '/' :: cs) :=
    hpos ▸ slice?_end h.text_eq
  obtain ⟨note, rest, hcs, hnote, hrest, hstop⟩ := exists_lineEnd (done ++ kept) ('/' :: cs)
  rw [← h.text_eq, hpos] at hstop
  have hslash : Scan.step (.code (endsWord (done ++ kept))) '/' (note ++ rest).head? =
      (.comment, .lineComment) := by
    rw [← hcs]
    rfl
  rw [hcs, ← List.cons_append] at h
  have hreads : (Scan.start.after (done ++ kept) ('/' :: note ++ rest).head?).Reads .comment
      ('/' :: note) rest := by
    rw [Scan.AtCode.eq_code h.code (by decide)]
    exact .cons hslash (Scan.reads_lineComment hnote hrest)
  have hdrop : ('/' :: note).filter (· = '\n') = [] := by
    rw [List.filter_eq_nil_iff]
    simpa [← List.forall_mem_ne'] using hnote
  refine ⟨_, round?_lineComment hb rfl h.slice?_kept hopen hnext hahead hstop, ?_⟩
  have hadvances := h.advances_drops hreads hopen (h.pos_lt (List.cons_ne_nil '/' note))
  rwa [hdrop, List.append_nil] at hadvances

theorem round_blockComment (h : Stands text s done kept ('/' :: '*' :: cs) 0) :
    ∃ s', s.round? text = some s' ∧ Advances text s s' := by
  have hopen : opensLiteral text s.pos = false := h.opensLiteral_pos
  have hb : byteAt? text s.pos = some '/' := h.byteAt?_pos (by decide)
  have hnext : byteAt? text (s.pos + 1) = some '*' := (h.byteAt?_next (by decide) (by decide)).2 rfl
  have hpos : byteLength (done ++ kept) = s.pos := h.pos.symm
  have hbehind : byteLength (done ++ kept ++ ['/', '*']) = s.pos + 2 := by
    rw [byteLength_append (done ++ kept), hpos]
    rfl
  have htext : text = done ++ kept ++ ['/', '*'] ++ cs := by rw [h.text_eq, List.append_assoc _ _ cs]; rfl
  have hahead : slice? text (s.pos + 2) (byteLength text) = some cs := hbehind ▸ slice?_end htext
  obtain ⟨note, rest, rfl, hnote, hstop⟩ := exists_commentEnd (done ++ kept ++ ['/', '*']) cs
  rw [← htext, hbehind, List.append_assoc _ _ note] at hstop
  have hcomment : slice? text s.pos (byteLength (done ++ kept ++ '/' :: '*' :: note)) =
      some ('/' :: '*' :: note) :=
    hpos ▸ slice?_eq (v := rest) (h.text_eq.trans (List.append_assoc _ ('/' :: '*' :: note) _).symm)
  rw [← List.cons_append, ← List.cons_append] at h
  have hreads : (Scan.start.after (done ++ kept) ('/' :: '*' :: note ++ rest).head?).Reads .comment
      ('/' :: '*' :: note) rest := by
    rw [Scan.AtCode.eq_code h.code (by decide)]
    exact .cons rfl (.cons rfl hnote)
  refine ⟨_, round?_blockComment hb rfl h.slice?_kept hopen hnext hahead hstop hcomment, ?_⟩
  exact h.advances_drops hreads hopen (h.pos_lt (List.cons_ne_nil '/' ('*' :: note)))

/-- A round succeeds where a byte is ahead. -/
theorem round (h : Stands text s done kept rest k) (hahead : s.pos < byteLength text) :
    ∃ s', s.round? text = some s' ∧ Advances text s s' := by
  have hpos := h.pos
  rcases h.inside with rfl | ⟨c, cs, rfl, hwide, hk⟩
  · cases rest with
    | nil =>
      rw [h.text_eq, List.append_nil] at hahead
      omega
    | cons c cs =>
      by_cases hwide : IsAscii c
      · cases hquote : Scan.opensLiteral (endsWord (done ++ kept)) c with
        | true => exact h.round_literal hquote
        | false =>
          by_cases hopens : c = '/' ∧ Scan.Opens cs.head?
          · obtain ⟨rfl, hline | hblock⟩ := hopens
            · obtain ⟨cs, rfl⟩ := List.head?_eq_some_iff.1 hline
              exact h.round_lineComment
            · obtain ⟨cs, rfl⟩ := List.head?_eq_some_iff.1 hblock
              exact h.round_blockComment
          · exact h.round_code hwide hquote fun hslash hnext => hopens ⟨hslash, hnext⟩
      · exact h.round_wide hwide c.utf8Size_pos
  · exact h.round_wide hwide hk

end Stands

/-! ## All rounds -/

section Reached

variable {text : List Char} {n : Nat} {s : ByteScan}

theorem Reached.stands (h : Reached text n s) : ∃ done kept rest k, Stands text s done kept rest k := by
  induction h with
  | start => exact ⟨_, _, _, _, stands_start text⟩
  | round before ahead moves ih =>
    obtain ⟨done, kept, rest, k, hstands⟩ := ih
    obtain ⟨s', hround, hadvances⟩ := hstands.round ahead
    obtain rfl := Option.some.inj (hround.symm.trans moves)
    exact hadvances.stands

theorem Reached.within (h : Reached text n s) : s.pos ≤ byteLength text := by
  obtain ⟨done, kept, rest, k, hstands⟩ := h.stands
  exact hstands.within

theorem Reached.round_spec (h : Reached text n s) (hahead : s.pos < byteLength text) :
    ∃ s', s.round? text = some s' ∧ Advances text s s' := by
  obtain ⟨done, kept, rest, k, hstands⟩ := h.stands
  exact hstands.round hahead

theorem Reached.advances (h : Reached text n s) (hahead : s.pos < byteLength text) {s' : ByteScan}
    (hmoves : s.round? text = some s') : Advances text s s' := by
  obtain ⟨_, hround, hadvances⟩ := h.round_spec hahead
  obtain rfl := Option.some.inj (hround.symm.trans hmoves)
  exact hadvances

/-- There are no more rounds than bytes. -/
theorem Reached.le_pos (h : Reached text n s) : n ≤ s.pos := by
  induction h with
  | start => exact Nat.le_refl 0
  | round before ahead moves ih => exact Nat.lt_of_le_of_lt ih (before.advances ahead moves).moves

/-- Each byte ahead is passed over in some round. -/
theorem Reached.exists_round (h : Reached text n s) {i : Nat} (hi : i < byteLength text)
    (hle : s.pos ≤ i) :
    ∃ m s₁ s₂, Reached text m s₁ ∧ s₁.round? text = some s₂ ∧ s₁.pos ≤ i ∧ i < s₂.pos := by
  induction hleft : i - s.pos using Nat.strongRecOn generalizing n s with
  | ind left ih =>
    have hahead : s.pos < byteLength text := Nat.lt_of_le_of_lt hle hi
    obtain ⟨s', hround, hadvances⟩ := h.round_spec hahead
    have hmoves := hadvances.moves
    rcases Nat.lt_or_ge i s'.pos with hlt | hge
    · exact ⟨n, s, s', h, hround, hle, hlt⟩
    · exact ih _ (by omega) (h.round hahead hround) hge rfl

end Reached

theorem exists_end (text : List Char) : ∃ n s, Reached text n s ∧ byteLength text ≤ s.pos := by
  rcases Nat.eq_zero_or_pos (byteLength text) with hzero | hpos
  · exact ⟨0, start, .start, Nat.le_of_eq hzero⟩
  · have hlast : byteLength text - 1 < byteLength text := Nat.sub_one_lt_of_lt hpos
    obtain ⟨n, s, s', hreached, hround, hle, hlt⟩ :=
      Reached.start.exists_round hlast (Nat.zero_le _)
    exact ⟨n + 1, s', hreached.round (by omega) hround, by omega⟩

/-- The scan of any text ends, after no more rounds than the text has bytes. Up to there each round
succeeds: the bounds of every slice that it takes are in order, within the text and between
characters. So are those of the last slice, with which the text without its comments is left. -/
theorem reached_spec (text : List Char) :
    (∀ n s, Reached text n s → n ≤ byteLength text ∧ s.pos ≤ byteLength text ∧
      (s.pos < byteLength text → ∃ s', s.round? text = some s' ∧ s.pos < s'.pos) ∧
      (s.pos = byteLength text → s.finish? text = some (stripComments text))) ∧
    ∃ n s, Reached text n s ∧ s.pos = byteLength text := by
  constructor
  · intro n s h
    refine ⟨Nat.le_trans h.le_pos h.within, h.within, fun hahead => ?_, fun hend => ?_⟩
    · obtain ⟨s', hround, hadvances⟩ := h.round_spec hahead
      exact ⟨s', hround, hadvances.moves⟩
    · obtain ⟨done, kept, rest, k, hstands⟩ := h.stands
      exact hstands.finish?_eq (Nat.le_of_eq hend.symm)
  · obtain ⟨n, s, h, hend⟩ := exists_end text
    exact ⟨n, s, h, Nat.le_antisymm h.within hend⟩

/-- The first round leaves the scan inside a character. Behind the backslash the literal is read on
from the second byte of a character of three. -/
theorem reached_spec_wide :
    let text := "é'\\€'/*\n€*/1'0//€".toList
    start.round? text = some ⟨1, 0, []⟩ ∧ ¬ IsBoundary text 1 ∧
      ∃ n s, Reached text n s ∧ s.pos = byteLength text ∧
        s.finish? text = some "é'\\€'\n1'0".toList := by
  intro text
  obtain ⟨hruns, n, s, hreached, hend⟩ := reached_spec text
  have hfinish := (hruns n s hreached).2.2.2 hend
  have hstripped : stripComments text = "é'\\€'\n1'0".toList := by decide
  refine ⟨by decide, by decide, n, s, hreached, hend, ?_⟩
  rw [hfinish, hstripped]

end ChaiBind.Text.ByteScan
