import ChaiBind.Proofs.Text.Parts

/-!
# Lines side by side

A text and the same text without comments have the same lines, side by side: what stands
on a line of the one is what stripping leaves of that line of the other (`strippedLine`),
though it may be scanned from inside a comment or a literal. Only a last line that is all
comment and has no newline is missing.

* `linesInduction`: induction over the lines of a text.
* `inclusiveLines_stripFrom_isPrefix`: the lines of the text without comments.
* `exists_inclusiveLines_around`: the line of a text on which a line of a part of it stands.
-/

namespace ChaiBind.Text

/-- What holds of a text without newlines, and of a text with one more line in front if it holds of
the text, holds of every text. -/
@[elab_as_elim]
theorem linesInduction {motive : List Char → Prop}
    (last : ∀ line, '\n' ∉ line → motive line)
    (cons : ∀ line rest, '\n' ∉ line → motive rest → motive (line ++ '\n' :: rest))
    (cs : List Char) : motive cs := by
  suffices h : ∀ line, '\n' ∉ line → motive (line ++ cs) from h [] List.not_mem_nil
  induction cs with
  | nil =>
    intro line hline
    rw [List.append_nil]
    exact last line hline
  | cons c cs ih =>
    intro line hline
    by_cases hc : c = '\n'
    · subst hc
      exact cons line cs hline (ih [] List.not_mem_nil)
    · have hmore : '\n' ∉ line ++ [c] := by
        rw [List.mem_append, List.mem_singleton, not_or]
        exact ⟨hline, fun e => hc e.symm⟩
      have h := ih (line ++ [c]) hmore
      rwa [List.append_assoc] at h

/-! ## Stripping line by line -/

/-- What is left of each line of a text. -/
def stripLines (s : Scan) : List (List Char) → List (List Char)
  | [] => []
  | line :: lines =>
    stripPart s line lines.flatten.head? :: stripLines (s.after line lines.flatten.head?) lines

/-- What stripping leaves of a line between what is above it and what is below. -/
def strippedLine (above line below : List Char) : List Char :=
  stripPart (Scan.start.after above (line ++ below).head?) line below.head?

theorem stripLines_append (s : Scan) (xs ys : List (List Char)) :
    ∃ zs, zs.length = xs.length ∧
      stripLines s (xs ++ ys) = zs ++ stripLines (s.after xs.flatten ys.flatten.head?) ys := by
  induction xs generalizing s with
  | nil => exact ⟨[], rfl, rfl⟩
  | cons x xs ih =>
    obtain ⟨zs, hlength, hzs⟩ := ih (s.after x (xs ++ ys).flatten.head?)
    refine ⟨stripPart s x (xs ++ ys).flatten.head? :: zs, by simp [hlength], ?_⟩
    rw [List.cons_append, stripLines, hzs, List.flatten_cons, Scan.after_append,
      ← List.head?_append, ← List.flatten_append, List.cons_append]

/-- Stripping a text strips its lines. -/
theorem inclusiveLines_stripFrom_isPrefix (s : Scan) (cs : List Char) :
    inclusiveLines (stripFrom s cs) <+: stripLines s (inclusiveLines cs) := by
  induction cs using linesInduction generalizing s with
  | last line hline =>
    by_cases hne : line = []
    · subst hne
      exact List.prefix_refl _
    · have hstripped : '\n' ∉ stripPart s line none := fun h =>
        hline ((stripPart_sublist s line none).subset h)
      rw [inclusiveLines_of_notMem hline hne, stripFrom_eq_stripPart]
      show _ <+: [stripPart s line none]
      by_cases hnil : stripPart s line none = []
      · rw [hnil]
        exact List.nil_prefix
      · refine ⟨[], ?_⟩
        rw [inclusiveLines_of_notMem hstripped hnil, List.append_nil]
  | cons line rest hline ih =>
    have hstripped : '\n' ∉ stripPart s line (some '\n') := fun h =>
      hline ((stripPart_sublist s line _).subset h)
    have hpart : ∀ next, stripPart s (line ++ ['\n']) next =
        stripPart s line (some '\n') ++ ['\n'] := by
      intro next
      rw [stripPart_append, stripPart_cons, if_pos (survives_newline _)]
      rfl
    have hsplit : line ++ '\n' :: rest = (line ++ ['\n']) ++ rest := by
      rw [List.append_assoc, List.singleton_append]
    rw [inclusiveLines_append_newline hline, stripLines, flatten_inclusiveLines, hsplit,
      stripFrom_append, hpart, List.append_assoc, List.singleton_append,
      inclusiveLines_append_newline hstripped, List.prefix_cons_inj]
    exact ih _

/-- The two sides of a pair of lines. -/
theorem exists_of_zip_inclusiveLines {cs : List Char} {pre post : List (List Char × List Char)}
    {p : List Char × List Char}
    (h : (inclusiveLines cs).zip (inclusiveLines (stripComments cs)) = pre ++ p :: post) :
    ∃ below, inclusiveLines cs = pre.map Prod.fst ++ p.1 :: below ∧
      p.2 = strippedLine (pre.map Prod.fst).flatten p.1 below.flatten := by
  obtain ⟨ws, xs, ys, zs, hlen, hlines, hkept, rfl, hrest⟩ := List.zip_eq_append_iff.1 h
  obtain ⟨below, kept, rfl, rfl, -⟩ := List.zip_eq_cons_iff.1 hrest.symm
  have hfst : (ws.zip ys).map Prod.fst = ws := List.map_fst_zip (Nat.le_of_eq hlen)
  refine ⟨below, by rw [hlines, hfst], ?_⟩
  obtain ⟨more, hmore⟩ := inclusiveLines_stripFrom_isPrefix .start cs
  obtain ⟨stripped, hlength, hstripped⟩ := stripLines_append .start ws (p.1 :: below)
  rw [← stripComments, hkept, hlines, hstripped, List.append_assoc] at hmore
  obtain ⟨-, hcons⟩ := List.append_inj hmore (hlen.symm.trans hlength.symm)
  rw [hfst]
  exact (List.cons.inj hcons).1

/-! ## Lines of a part -/

/-- Every line ends with its only newline, but the last one may have none. -/
theorem exists_of_inclusiveLines {cs line : List Char} {above below : List (List Char)}
    (h : inclusiveLines cs = above ++ line :: below) :
    ∃ start, '\n' ∉ start ∧
      (line = start ++ ['\n'] ∨ line = start ∧ start ≠ [] ∧ below = []) := by
  induction cs using linesInduction generalizing above with
  | last start hstart =>
    by_cases hne : start = []
    · subst hne
      cases above <;> cases h
    · rw [inclusiveLines_of_notMem hstart hne] at h
      obtain ⟨rfl, hline⟩ | ⟨-, hline⟩ := List.singleton_eq_append_iff.1 h
      · obtain ⟨rfl, rfl⟩ := List.cons.inj hline
        exact ⟨line, hstart, .inr ⟨rfl, hne, rfl⟩⟩
      · cases hline
  | cons start rest hstart ih =>
    rw [inclusiveLines_append_newline hstart] at h
    cases above with
    | nil => exact ⟨start, hstart, .inl (List.cons.inj h).1.symm⟩
    | cons first above => exact ih (List.cons.inj h).2

/-- What is above a line ends with a newline. -/
theorem exists_flatten_of_inclusiveLines {cs line : List Char} {above below : List (List Char)}
    (h : inclusiveLines cs = above ++ line :: below) (hne : above ≠ []) :
    ∃ ds, above.flatten = ds ++ ['\n'] := by
  obtain ⟨above, last, rfl⟩ := (List.eq_nil_or_concat above).resolve_left hne
  rw [List.concat_eq_append, List.append_assoc, List.singleton_append] at h
  obtain ⟨start, -, rfl | ⟨-, -, hbelow⟩⟩ := exists_of_inclusiveLines h
  · refine ⟨above.flatten ++ start, ?_⟩
    rw [List.concat_eq_append, List.flatten_append, List.flatten_singleton, List.append_assoc]
  · cases hbelow

/-- A line of a part of a text stands on a line of the text, which is that line unless it is the
first or the last one of the part. -/
theorem exists_inclusiveLines_around (before after : List Char) {body line : List Char}
    {above below : List (List Char)} (h : inclusiveLines body = above ++ line :: below) :
    ∃ upper lead trail lower,
      inclusiveLines (before ++ body ++ after) = upper ++ (lead ++ line ++ trail) :: lower ∧
        upper.flatten ++ lead = before ++ above.flatten ∧
        upper.length = before.count '\n' + above.length ∧
        (above ≠ [] → lead = []) ∧ (below ≠ [] → trail = []) := by
  obtain ⟨start, hstart, hline⟩ := exists_of_inclusiveLines h
  have hbody : body = above.flatten ++ (line ++ below.flatten) := by
    rw [← flatten_inclusiveLines body, h, List.flatten_append, List.flatten_cons]
  -- The line with what follows it up to the end of its line.
  obtain ⟨trail, under, hunder, htrail⟩ : ∃ trail under,
      inclusiveLines (line ++ (below.flatten ++ after)) = (line ++ trail) :: under ∧
        (below ≠ [] → trail = []) := by
    rcases hline with rfl | ⟨rfl, hne, rfl⟩
    · refine ⟨[], inclusiveLines (below.flatten ++ after), ?_, fun _ => rfl⟩
      rw [List.append_assoc, List.singleton_append, inclusiveLines_append_newline hstart,
        List.append_nil]
    · exact ⟨_, _, inclusiveLines_append_of_notMem hstart hne _, fun hbelow => absurd rfl hbelow⟩
  -- What comes before it, cut at the start of its line.
  obtain ⟨lines, lead, hbefore, hlines, hlead, hwhole⟩ : ∃ lines lead,
      before ++ above.flatten = lines ++ lead ∧ EndsLine lines ∧ '\n' ∉ lead ∧
        (above ≠ [] → lead = []) := by
    by_cases hne : above = []
    · obtain ⟨lines, lead, rfl, hlines, hlead⟩ := exists_endsLine_append before
      refine ⟨lines, lead, ?_, hlines, hlead, fun h => absurd hne h⟩
      rw [hne, List.flatten_nil, List.append_nil]
    · obtain ⟨ds, hds⟩ := exists_flatten_of_inclusiveLines h hne
      refine ⟨before ++ above.flatten, [], (List.append_nil _).symm, ?_, List.not_mem_nil,
        fun _ => rfl⟩
      rw [hds, ← List.append_assoc]
      exact endsLine_append_newline _
  have htext : inclusiveLines (before ++ body ++ after) =
      inclusiveLines lines ++ (lead ++ line ++ trail) :: under := by
    have hsplit : before ++ body ++ after =
        lines ++ (lead ++ (line ++ (below.flatten ++ after))) := by
      rw [hbody, ← List.append_assoc lines, ← hbefore]
      simp only [List.append_assoc]
    rw [hsplit, inclusiveLines_append hlines]
    by_cases hnil : lead = []
    · rw [hnil, List.nil_append, hunder, List.nil_append]
    · rw [inclusiveLines_append_of_notMem hlead hnil, hunder, List.append_assoc]
      rfl
  refine ⟨inclusiveLines lines, lead, trail, under, htext, ?_, ?_, hwhole, htrail⟩
  · rw [flatten_inclusiveLines, hbefore]
  · have hupper := count_newline_of_inclusiveLines htext
    have habove := count_newline_of_inclusiveLines h
    have hcount := congrArg (List.count '\n') hbefore
    rw [List.count_append, List.count_append, List.count_eq_zero.2 hlead] at hcount
    rw [flatten_inclusiveLines] at hupper
    omega

end ChaiBind.Text
