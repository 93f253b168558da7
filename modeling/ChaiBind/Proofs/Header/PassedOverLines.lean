import ChaiBind.Proofs.Header.JoinedRegions
import ChaiBind.Proofs.Header.Literals

/-!
# Lines that are passed over

What a region declares and what is reported about it comes from the lines that say something. So
whole lines of it that say nothing at the depths of braces at which they are read, and behind which
the depth is what it was in front of them, can be taken out: the table stays as it is, and so do the
diagnostics, apart from the places of those that come behind (`methodsOf_passedOver`). The body of
an inline function is made of such lines, whatever it says (`methodsOf_inlineBody`).

* `readingsFrom`: the readings of lines, wherever the lines stand.
* `said_passedOver`: lines between others that say nothing.
-/

namespace ChaiBind

open Text

/-- The diagnostic without its place. -/
def Diagnostic.unplaced (d : Diagnostic) : Diagnostic := { d with location := none }

namespace Header

/-! ## What lines say -/

/-- The depth of braces after lines without comments. -/
def depthFrom (depth : Nat) (lines : List (List Char)) : Nat :=
  lines.foldl (fun depth line => depthAfter depth (lineCode line)) depth

theorem depthFrom_append (depth : Nat) (xs ys : List (List Char)) :
    depthFrom depth (xs ++ ys) = depthFrom (depthFrom depth xs) ys := List.foldl_append

theorem depthBehind_eq (text : List Char) :
    depthBehind text = depthFrom 0 (inclusiveLines (stripComments text)) := rfl

/-- The readings of lines without comments, from a depth of braces on. -/
def readingsFrom (className : String) (code : List Char) :
    Nat → List (List Char) → List LineReading
  | _, [] => []
  | depth, line :: lines =>
    (if depth = 0 then readLine className code (lineCode line) else .ignored) ::
      readingsFrom className code (depthAfter depth (lineCode line)) lines

/-- The readings that say something. -/
def said (rs : List LineReading) : List LineReading := rs.filter (· ≠ .ignored)

theorem said_append (xs ys : List LineReading) : said (xs ++ ys) = said xs ++ said ys :=
  List.filter_append ..

variable {className : String} {code : List Char}

theorem readingsFrom_append (depth : Nat) (xs ys : List (List Char)) :
    readingsFrom className code depth (xs ++ ys) =
      readingsFrom className code depth xs ++ readingsFrom className code (depthFrom depth xs) ys := by
  induction xs generalizing depth with
  | nil => rfl
  | cons x xs ih =>
    rw [List.cons_append, readingsFrom, ih, readingsFrom]
    rfl

/-- Each reading is that of a line at the depth behind the lines above it. -/
theorem exists_of_mem_readingsFrom {depth : Nat} {lines : List (List Char)} {r : LineReading}
    (h : r ∈ readingsFrom className code depth lines) :
    ∃ above line below, lines = above ++ line :: below ∧
      r = if depthFrom depth above = 0 then readLine className code (lineCode line) else .ignored := by
  induction lines generalizing depth with
  | nil => cases h
  | cons line lines ih =>
    rw [readingsFrom] at h
    rcases List.mem_cons.1 h with rfl | h
    · exact ⟨[], line, lines, rfl, rfl⟩
    · obtain ⟨above, line', below, rfl, hr⟩ := ih h
      exact ⟨line :: above, line', below, rfl, hr⟩

/-- Where the lines of a region stand does not matter for what they say. -/
theorem map_snd_readLines (offset depth : Nat) (lines : List (List Char × List Char)) :
    (readLines className code offset depth lines).map Prod.snd =
      readingsFrom className code depth (lines.map Prod.snd) := by
  induction lines generalizing offset depth with
  | nil => rfl
  | cons line lines ih =>
    rw [readLines_cons, List.map_cons, List.map_cons, readingsFrom, ih]
    rfl

theorem filterMap_said {β : Type} {f : LineReading → Option β} (hf : f .ignored = none)
    (rs : List LineReading) : (said rs).filterMap f = rs.filterMap f := by
  rw [said, List.filterMap_filter]
  congr 1
  funext r
  by_cases hr : r = .ignored
  · simp [hr, hf]
  · simp [hr]

/-- The table and, apart from their places, the diagnostics of a region come from what its lines
say. -/
theorem methodsOf_eq_of_said (className : String) (body : List Char) (offset : Nat)
    (text : List Char) :
    let rs := said (readingsFrom className (countedCode text) 0 (inclusiveLines (stripComments body)))
    (methodsOf className body offset text).1 = tableOf (rs.filterMap (·.member?)) ∧
      (methodsOf className body offset text).2.map Diagnostic.unplaced =
        rs.filterMap fun r => r.finding?.map Finding.report := by
  intro rs
  have hreadings : (readBody className body offset text).map Prod.snd =
      readingsFrom className (countedCode text) 0 (inclusiveLines (stripComments body)) := by
    rw [readBody, map_snd_readLines, map_snd_pairedLines]
  have hmembers : rs.filterMap (·.member?) =
      (readBody className body offset text).filterMap (·.2.member?) := by
    rw [filterMap_said rfl, ← hreadings, List.filterMap_map]
    rfl
  have hfindings : (rs.filterMap fun r => r.finding?.map Finding.report) =
      (readBody className body offset text).filterMap fun r => r.2.finding?.map Finding.report := by
    rw [filterMap_said rfl, ← hreadings, List.filterMap_map]
    rfl
  rw [hmembers, hfindings]
  refine ⟨membersOf_eq_tableOf _, ?_⟩
  rw [methodsOf, findingsOf, List.map_filterMap]
  congr 1
  funext r
  obtain ⟨offset, reading⟩ := r
  cases reading <;> rfl

/-! ## Lines that say nothing -/

/-- Lines between others that say nothing and leave the depth as it is. -/
theorem said_passedOver {depth : Nat} {xs ys zs : List (List Char)}
    (hignored : ∀ r ∈ readingsFrom className code (depthFrom depth xs) ys, r = .ignored)
    (hdepth : depthFrom (depthFrom depth xs) ys = depthFrom depth xs) :
    said (readingsFrom className code depth (xs ++ ys ++ zs)) =
      said (readingsFrom className code depth (xs ++ zs)) := by
  have hnone : said (readingsFrom className code (depthFrom depth xs) ys) = [] :=
    List.filter_eq_nil_iff.2 fun r hr => by simp [hignored r hr]
  rw [readingsFrom_append, readingsFrom_append, readingsFrom_append, depthFrom_append, hdepth,
    said_append, said_append, said_append, hnone, List.append_nil]

/-- Lines say the same in the code of files in which each name is mentioned as often. -/
theorem readingsFrom_congr {code' : List Char}
    (hcount : ∀ name, (∀ c ∈ name, isWord c) → occurrences name code = occurrences name code')
    (depth : Nat) (lines : List (List Char)) :
    readingsFrom className code depth lines = readingsFrom className code' depth lines := by
  induction lines generalizing depth with
  | nil => rfl
  | cons line lines ih => rw [readingsFrom, ih, readLine_congr hcount, readingsFrom]

/-! ## Whole lines of a region -/

/-- Whole lines behind which neither a comment nor a literal is open. -/
structure StopsInCode (lines : List Char) : Prop where
  whole : EndsLine lines
  scan : Scan.start.after lines none = .start

variable {above lines : List Char}

theorem StopsInCode.inclusiveLines_append (h : StopsInCode above) (below : List Char) :
    inclusiveLines (stripComments (above ++ below)) =
      inclusiveLines (stripComments above) ++ inclusiveLines (stripComments below) := by
  rw [inclusiveLines_stripComments_append h.whole, h.scan, ← stripComments]

theorem StopsInCode.of_append (habove : StopsInCode above) (h : StopsInCode (above ++ lines)) :
    StopsInCode lines where
  whole c hc := h.whole c (by rw [List.getLast?_append, Option.mem_def.1 hc]; rfl)
  scan := by
    have hscan := h.scan
    rwa [Scan.after_append, habove.whole.after_eq .start _ none, habove.scan] at hscan

/-- Whole lines of a region that say nothing, and leave the depth of braces as it is, can be taken
out of it, in a file or in one that mentions each name as often. -/
theorem methodsOf_passedOver {text text' : List Char} (habove : StopsInCode above)
    (hlines : StopsInCode lines)
    (hignored : ∀ r ∈ readingsFrom className (countedCode text) (depthBehind above)
      (inclusiveLines (stripComments lines)), r = .ignored)
    (hdepth : depthBehind (above ++ lines) = depthBehind above)
    (hcount : ∀ name, (∀ c ∈ name, isWord c) →
      occurrences name (countedCode text) = occurrences name (countedCode text'))
    (below : List Char) (offset offset' : Nat) :
    (methodsOf className (above ++ lines ++ below) offset text).1 =
        (methodsOf className (above ++ below) offset' text').1 ∧
      (methodsOf className (above ++ lines ++ below) offset text).2.map Diagnostic.unplaced =
        (methodsOf className (above ++ below) offset' text').2.map Diagnostic.unplaced := by
  have hsplit : inclusiveLines (stripComments (above ++ lines ++ below)) =
      inclusiveLines (stripComments above) ++ inclusiveLines (stripComments lines) ++
        inclusiveLines (stripComments below) := by
    rw [List.append_assoc, habove.inclusiveLines_append, hlines.inclusiveLines_append,
      List.append_assoc]
  have hkept : depthFrom (depthBehind above) (inclusiveLines (stripComments lines)) =
      depthBehind above := by
    have hthrough := hdepth
    rwa [depthBehind_eq, habove.inclusiveLines_append, depthFrom_append, ← depthBehind_eq] at hthrough
  have hsaid : said (readingsFrom className (countedCode text) 0
        (inclusiveLines (stripComments (above ++ lines ++ below)))) =
      said (readingsFrom className (countedCode text') 0
        (inclusiveLines (stripComments (above ++ below)))) := by
    rw [hsplit, said_passedOver hignored hkept, habove.inclusiveLines_append,
      readingsFrom_congr hcount]
  obtain ⟨htable, hfindings⟩ :=
    methodsOf_eq_of_said className (above ++ lines ++ below) offset text
  obtain ⟨htable', hfindings'⟩ :=
    methodsOf_eq_of_said className (above ++ below) offset' text'
  rw [htable, hfindings, htable', hfindings', hsaid]
  exact ⟨rfl, rfl⟩

/-! ## Inline bodies -/

/-- Whole lines of a region in front of each of which a brace is open, and behind which as many are
open as in front of the first one. -/
structure IsInlineBody (above body : List Char) : Prop where
  starts : StopsInCode above
  stops : StopsInCode (above ++ body)
  inside : ∀ lines line rest, inclusiveLines body = lines ++ line :: rest →
    0 < depthBehind (above ++ lines.flatten)
  closes : depthBehind (above ++ body) = depthBehind above

/-- The lines of a text above one of its lines without comments. -/
theorem exists_lines_above {body line : List Char} {kept rest : List (List Char)}
    (hbody : EndsLine body) (h : inclusiveLines (stripComments body) = kept ++ line :: rest) :
    ∃ lines line' rest', inclusiveLines body = lines ++ line' :: rest' ∧
      inclusiveLines (stripComments lines.flatten) = kept := by
  -- stripping keeps every line, so that the line is found by counting those above it
  have hlength := length_inclusiveLines_stripComments hbody
  rw [h, List.length_append, List.length_cons] at hlength
  obtain ⟨lines, others, hsplit, hlines⟩ :
      ∃ lines others, inclusiveLines body = lines ++ others ∧ lines.length = kept.length := by
    refine ⟨_, _, (List.take_append_drop kept.length _).symm, ?_⟩
    rw [List.length_take]
    omega
  rw [hsplit, List.length_append] at hlength
  obtain ⟨line', rest', rfl⟩ := List.exists_cons_of_length_pos (l := others) (by omega)
  have hwhole : EndsLine lines.flatten := by
    by_cases hne : lines = []
    · subst hne
      exact endsLine_nil
    · obtain ⟨ds, hds⟩ := exists_flatten_of_inclusiveLines hsplit hne
      exact hds ▸ endsLine_append_newline ds
  refine ⟨lines, line', rest', hsplit, ?_⟩
  have hcut : body = lines.flatten ++ (line' :: rest').flatten := by
    rw [← flatten_inclusiveLines body, hsplit, List.flatten_append]
  have hkept := h
  rw [hcut, inclusiveLines_stripComments_append hwhole] at hkept
  refine (List.append_inj hkept ?_).1
  rw [length_inclusiveLines_stripComments hwhole, hwhole.length_inclusiveLines,
    count_newline_of_inclusiveLines hsplit, hlines]

/-- The body of an inline function can be taken out of a region. -/
theorem methodsOf_inlineBody {body : List Char} (h : IsInlineBody above body)
    (className : String) (below text : List Char) (offset : Nat) :
    let whole := methodsOf className (above ++ body ++ below) offset text
    let rest := methodsOf className (above ++ below) offset text
    whole.1 = rest.1 ∧ whole.2.map Diagnostic.unplaced = rest.2.map Diagnostic.unplaced := by
  have hbody : StopsInCode body := h.starts.of_append h.stops
  refine methodsOf_passedOver h.starts hbody (fun r hr => ?_) h.closes (fun _ _ => rfl) below offset
    offset
  obtain ⟨kept, line, rest, hkept, hreading⟩ := exists_of_mem_readingsFrom hr
  obtain ⟨lines, line', rest', hlines, habove⟩ := exists_lines_above hbody.whole hkept
  have hdepth := h.inside lines line' rest' hlines
  rw [depthBehind_eq, h.starts.inclusiveLines_append, depthFrom_append, ← depthBehind_eq, habove]
    at hdepth
  rw [hreading, if_neg (Nat.ne_of_gt hdepth)]

/-- A function with a body of which a brace is open in front of each line, while other braces open
and close inside, and a comment and a literal have braces too. -/
theorem compute_passedOver :
    let above := "int get() const \x7b\n".toList
    let body := "  if (n > 0) \x7b // \x7d\n    log(\"n\");\n  \x7d\n  return compute(1);\n".toList
    let below := "\x7d\nvoid set(int n);\noperator bool();\n".toList
    let whole := methodsOf "Foo" (above ++ body ++ below) 0 (above ++ body ++ below)
    let rest := methodsOf "Foo" (above ++ below) 0 (above ++ body ++ below)
    IsInlineBody above body ∧ whole.1.keys = ["get", "set"] ∧ whole.1 = rest.1 ∧
      whole.2.map Diagnostic.unplaced = rest.2.map Diagnostic.unplaced := by
  intro above body below whole rest
  have hinside : ∀ n < 4, 0 < depthBehind (above ++ ((inclusiveLines body).take n).flatten) := by decide
  have hlength : (inclusiveLines body).length = 4 := by decide
  have hbody : IsInlineBody above body := by
    refine ⟨⟨by decide, rfl⟩, ⟨by decide, rfl⟩, fun lines line rest h => ?_, by decide⟩
    have hlines : lines = (inclusiveLines body).take lines.length := by
      rw [h, List.take_left]
    have hlt : lines.length < 4 := by
      rw [← hlength, h, List.length_append, List.length_cons]
      omega
    rw [hlines]
    exact hinside _ hlt
  exact ⟨hbody, by decide +kernel, methodsOf_inlineBody hbody "Foo" below (above ++ body ++ below) 0⟩

end Header

end ChaiBind
