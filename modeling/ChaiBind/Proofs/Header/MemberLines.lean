import ChaiBind.Proofs.Header.Declarations
import ChaiBind.Proofs.Text.Places
import ChaiBind.Proofs.Text.Stripping

/-!
# Lines of a region and what comes of them

Each line of a region has one reading, and what comes of a region is read off its
readings: a member goes to the end of the overloads of its name, a finding is
reported at its own line and no other.

* `mem_readLines`: which reading belongs to which line, and where it stands.
* `line_locate_of_split`: the line number at which a reading is located.
* `declaration_answered_iff`: a line that declares a member function adds an
  overload of it to the table or is the line of a diagnostic, unless the
  declaration is lost.
-/

namespace ChaiBind

namespace MethodTable

theorem get?_push (t : MethodTable) (name : String) (o : Overload) (k : String) :
    (t.push name o).get? k = if k = name then some ((t.get? name).getD [] ++ [o]) else t.get? k :=
  t.get?_alter name _ k

theorem push_ne (t : MethodTable) (name : String) (o : Overload) : t ≠ t.push name o := by
  intro h
  have hget := congrArg (fun t : MethodTable => (t.get? name).getD []) h
  simp [get?_push] at hget

theorem name_eq_of_push {t : MethodTable} {m n : String} {o p : Overload}
    (h : t.push m o = t.push n p) : m = n := by
  by_contra hne
  have hget := congrArg (fun t : MethodTable => (t.get? n).getD []) h
  simp [get?_push, Ne.symm hne] at hget

end MethodTable

namespace Header

open Text

/-! ## Readings in order -/

/-- The bytes of some lines of a region. -/
def linesLength (lines : List (List Char × List Char)) : Nat :=
  byteLength (lines.map Prod.fst).flatten

/-- The depth of braces after some lines. -/
def depthThrough (depth : Nat) (lines : List (List Char × List Char)) : Nat :=
  lines.foldl (fun depth p => depthAfter depth (lineCode p.2)) depth

/-- What a line says at a depth of braces. -/
def readingAt (className : String) (code : List Char) (depth : Nat)
    (line : List Char × List Char) : LineReading :=
  if depth = 0 then readLine className code (lineCode line.2) else .ignored

theorem linesLength_cons (p : List Char × List Char) (lines : List (List Char × List Char)) :
    linesLength (p :: lines) = byteLength p.1 + linesLength lines := by
  rw [linesLength, List.map_cons, List.flatten_cons, byteLength_append, linesLength]

variable {className : String} {code : List Char}

theorem readLines_cons (offset depth : Nat) (p : List Char × List Char)
    (lines : List (List Char × List Char)) :
    readLines className code offset depth (p :: lines) =
      (offset + byteLength (leadingBlank p.1), readingAt className code depth p) ::
        readLines className code (offset + byteLength p.1) (depthAfter depth (lineCode p.2)) lines :=
  rfl

theorem readLines_append (offset depth : Nat) (xs ys : List (List Char × List Char)) :
    readLines className code offset depth (xs ++ ys) =
      readLines className code offset depth xs ++
        readLines className code (offset + linesLength xs) (depthThrough depth xs) ys := by
  induction xs generalizing offset depth with
  | nil => rfl
  | cons p xs ih =>
    rw [List.cons_append, readLines_cons, ih, readLines_cons, linesLength_cons, Nat.add_assoc]
    rfl

theorem mem_readLines {offset depth : Nat} {lines : List (List Char × List Char)}
    {r : Nat × LineReading} :
    r ∈ readLines className code offset depth lines ↔
      ∃ pre p post, lines = pre ++ p :: post ∧
        r = (offset + linesLength pre + byteLength (leadingBlank p.1),
          readingAt className code (depthThrough depth pre) p) := by
  constructor
  · intro h
    induction lines generalizing offset depth with
    | nil => cases h
    | cons p lines ih =>
      rw [readLines_cons] at h
      rcases List.mem_cons.1 h with rfl | h
      · exact ⟨[], p, lines, rfl, rfl⟩
      · obtain ⟨pre, q, post, rfl, rfl⟩ := ih h
        refine ⟨p :: pre, q, post, rfl, ?_⟩
        rw [linesLength_cons, Nat.add_assoc offset]
        rfl
  · rintro ⟨pre, p, post, rfl, rfl⟩
    rw [readLines_append, readLines_cons]
    exact List.mem_append_right _ List.mem_cons_self

theorem membersOf_append_singleton (rs : List (Nat × LineReading)) (r : Nat × LineReading) :
    membersOf (rs ++ [r]) =
      match r.2 with
      | .member name o => (membersOf rs).push name o
      | _ => membersOf rs := by
  rw [membersOf, List.foldl_append]
  rfl

theorem mem_findingsOf {text : List Char} {rs : List (Nat × LineReading)} {diag : Diagnostic} :
    diag ∈ findingsOf text rs ↔
      ∃ offset f, (offset, LineReading.reported f) ∈ rs ∧
        diag = f.reportAt (locate text offset) := by
  rw [findingsOf, List.mem_filterMap]
  constructor
  · rintro ⟨⟨offset, reading⟩, hmem, h⟩
    cases reading with
    | reported f => exact ⟨offset, f, hmem, (Option.some.inj h).symm⟩
    | ignored | member => cases h
  · rintro ⟨offset, f, hmem, rfl⟩
    exact ⟨_, hmem, rfl⟩

/-! ## Line numbers -/

/-- The raw sides of paired lines are the first lines of the region. -/
theorem exists_inclusiveLines_eq {body : List Char} {pre post : List (List Char × List Char)}
    {p : List Char × List Char} (h : pairedLines body = pre ++ p :: post) :
    ∃ lines, inclusiveLines body = pre.map Prod.fst ++ p.1 :: lines := by
  obtain ⟨ws, xs, ys, zs, hlen, hbody, -, rfl, hrest⟩ := List.zip_eq_append_iff.1 h
  obtain ⟨lines, _, hxs, -, -⟩ := List.zip_eq_cons_iff.1 hrest.symm
  exact ⟨lines, by rw [hbody, hxs, List.map_fst_zip (Nat.le_of_eq hlen)]⟩

/-- A line of code comes from a line with a character that is not blank. -/
theorem exists_not_isBlank {body : List Char} {p : List Char × List Char}
    (h : p ∈ pairedLines body) (hcode : lineCode p.2 ≠ []) : ∃ c ∈ p.1, ¬ isBlank c := by
  by_contra hblank
  simp only [not_exists, not_and, not_not] at hblank
  have hsub := sublist_of_mem_zip_inclusiveLines .start body p h
  have htrim : trimStart p.2 = [] :=
    List.dropWhile_eq_nil_iff.2 fun c hc => hblank c (hsub.subset hc)
  refine hcode ?_
  rw [lineCode, trim, htrim]
  rfl

/-- A line that says something is located on itself. -/
theorem line_locate_of_split {before body after : List Char}
    {pre post : List (List Char × List Char)} {p : List Char × List Char}
    (h : pairedLines body = pre ++ p :: post) (hcode : lineCode p.2 ≠ []) :
    (locate (before ++ body ++ after)
      (byteLength before + linesLength pre + byteLength (leadingBlank p.1))).line =
        1 + before.count '\n' + pre.length := by
  obtain ⟨lines, hlines⟩ := exists_inclusiveLines_eq h
  obtain ⟨c, hc, hblank⟩ := exists_not_isBlank (h ▸ List.mem_append_right _ List.mem_cons_self) hcode
  have hraw : p.1 ∈ inclusiveLines body := hlines ▸ List.mem_append_right _ List.mem_cons_self
  have hpre := count_newline_of_inclusiveLines hlines
  have hleading : (leadingBlank p.1).count '\n' = 0 :=
    List.count_eq_zero.2 (newline_notMem_leadingBlank (newline_notMem_dropLast hraw) hc hblank)
  have hbody : body = (pre.map Prod.fst).flatten ++
      (leadingBlank p.1 ++ trimStart p.1 ++ lines.flatten) := by
    rw [leadingBlank_append_trimStart, ← flatten_inclusiveLines body, hlines,
      List.flatten_append, List.flatten_cons]
  have hsplit : before ++ body ++ after = (before ++ (pre.map Prod.fst).flatten ++
      leadingBlank p.1) ++ (trimStart p.1 ++ lines.flatten ++ after) := by
    rw [hbody]
    simp only [List.append_assoc]
  rw [hsplit, linesLength, ← byteLength_append, ← byteLength_append, line_locate_append,
    List.count_append, List.count_append, hpre, hleading, List.length_map, Nat.add_zero,
    Nat.add_assoc]

/-! ## Declarations in a region -/

theorem lineCode_ne_nil {depth : Nat} {p : List Char × List Char} {f : Finding}
    (h : readingAt className code depth p = .reported f) : lineCode p.2 ≠ [] := by
  intro hnil
  rw [readingAt, hnil] at h
  split at h <;> cases h

/-- A diagnostic of a region stands on a line if and only if that line is reported. -/
theorem exists_diagnostic_iff {before body after : List Char}
    {pre post : List (List Char × List Char)} {p : List Char × List Char}
    (h : pairedLines body = pre ++ p :: post) :
    (∃ diag ∈ (methodsOf className body (byteLength before) (before ++ body ++ after)).2,
        diag.location.map (·.line) = some (1 + before.count '\n' + pre.length)) ↔
      ∃ f, readingAt className (countedCode (before ++ body ++ after)) (depthThrough 0 pre) p =
        .reported f := by
  simp only [methodsOf, readBody]
  constructor
  · rintro ⟨diag, hdiag, hline⟩
    obtain ⟨offset, f, hmem, rfl⟩ := mem_findingsOf.1 hdiag
    obtain ⟨pre', p', post', hsplit, hr⟩ := mem_readLines.1 hmem
    obtain ⟨rfl, hreading⟩ := Prod.mk.inj hr
    have hcode : lineCode p'.2 ≠ [] := lineCode_ne_nil hreading.symm
    have hlen : pre'.length = pre.length := by
      simp only [Finding.reportAt, Option.map_some, Option.some.injEq] at hline
      rw [line_locate_of_split hsplit hcode] at hline
      omega
    obtain ⟨rfl, hcons⟩ := List.append_inj (hsplit.symm.trans h) hlen
    obtain ⟨rfl, -⟩ := List.cons.inj hcons
    exact ⟨f, hreading.symm⟩
  · rintro ⟨f, hf⟩
    have hcode : lineCode p.2 ≠ [] := lineCode_ne_nil hf
    have hmem : (byteLength before + linesLength pre + byteLength (leadingBlank p.1),
        LineReading.reported f) ∈ readLines className (countedCode (before ++ body ++ after))
          (byteLength before) 0 (pairedLines body) :=
      mem_readLines.2 ⟨pre, p, post, h, by rw [hf]⟩
    exact ⟨_, mem_findingsOf.2 ⟨_, f, hmem, rfl⟩, congrArg some (line_locate_of_split h hcode)⟩

/-- The table of methods after some lines of a region, which after all of them is the table of the
region. -/
def tableThrough (className : String) (text : List Char) (offset : Nat)
    (lines : List (List Char × List Char)) : MethodTable :=
  membersOf (readLines className (countedCode text) offset 0 lines)

/-- A line adds an overload of a name to the table if and only if it is read as a member of that
name. -/
theorem exists_tableThrough_eq_push_iff {text : List Char} {offset : Nat}
    {pre : List (List Char × List Char)} {p : List Char × List Char} {name : String} :
    (∃ o, tableThrough className text offset (pre ++ [p]) =
        (tableThrough className text offset pre).push name o) ↔
      ∃ o, readingAt className (countedCode text) (depthThrough 0 pre) p = .member name o := by
  rw [tableThrough, readLines_append, readLines_cons, readLines, membersOf_append_singleton,
    ← tableThrough]
  cases readingAt className (countedCode text) (depthThrough 0 pre) p with
  | member n o =>
    refine ⟨fun ⟨o', h⟩ => ⟨o, ?_⟩, fun ⟨o', h⟩ => ⟨o, ?_⟩⟩
    · rw [MethodTable.name_eq_of_push h]
    · cases h
      rfl
  | ignored | reported =>
    exact iff_of_false (fun ⟨o, h⟩ => MethodTable.push_ne _ name o h) nofun

/-- A line outside braces that declares a member function adds an overload of its name to the
table, or is the line of a diagnostic, if and only if the declaration is not lost. -/
theorem declaration_answered_iff {className : String} {before body after : List Char}
    {pre post : List (List Char × List Char)} {line : List Char × List Char} {d : Declaration}
    (hlines : pairedLines body = pre ++ line :: post) (hdepth : depthThrough 0 pre = 0)
    (hcode : lineCode line.2 = d.text) (hd : d.WellFormed) :
    ((∃ o, tableThrough className (before ++ body ++ after) (byteLength before) (pre ++ [line]) =
          (tableThrough className (before ++ body ++ after) (byteLength before) pre).push
            (String.ofList d.name) o) ∨
        ∃ diag ∈ (methodsOf className body (byteLength before) (before ++ body ++ after)).2,
          diag.location.map (·.line) = some (1 + before.count '\n' + pre.length)) ↔
      ¬ d.IsLost className := by
  rw [exists_tableThrough_eq_push_iff, exists_diagnostic_iff hlines,
    ← Declaration.answers_readLine_text_iff hd className (countedCode (before ++ body ++ after)), readingAt,
    if_pos hdepth, hcode]
  cases readLine className (countedCode (before ++ body ++ after)) d.text with
  | ignored => simp [LineReading.Answers]
  | reported f => simp [LineReading.Answers]
  | member n o => simp [LineReading.Answers]

/-- A getter with a specifier, whose parameters are a function and a number with a default. -/
def itemsDeclaration : Declaration :=
  ⟨"virtual const std::vector<int>& ".toList, "items".toList, [],
    "int (*f)(int), int n = g(1)".toList, " const".toList⟩

theorem items_answered :
    let line := itemsDeclaration.text ++ ['\n']
    pairedLines line = [(line, line)] ∧ itemsDeclaration.WellFormed ∧
      ((∃ o, tableThrough "Bag" line 0 [(line, line)] =
          (tableThrough "Bag" line 0 []).push "items" o) ∨
        ∃ diag ∈ (methodsOf "Bag" line 0 line).2, diag.location.map (·.line) = some 1) := by
  intro line
  have hpaired : pairedLines line = [] ++ (line, line) :: [] := rfl
  have hcode : lineCode line = itemsDeclaration.text := rfl
  have hwell : itemsDeclaration.WellFormed := by decide
  have hearlier : itemsDeclaration.earlier? = none := rfl
  have hlost : ¬ itemsDeclaration.IsLost "Bag" := by
    intro hlost
    cases hlost with
    | deleted h => exact absurd h (by decide)
    | earlier _ h => cases hearlier.symm.trans h
    | type _ _ _ h => exact absurd h (by decide)
    | later _ _ h => exact absurd h (by decide)
  have hiff := @declaration_answered_iff "Bag" [] line [] _ _ _ _ hpaired rfl hcode hwell
  rw [List.append_nil] at hiff
  exact ⟨hpaired, hwell, hiff.2 hlost⟩

/-- A getter of a callback, whose type has a parameter list in it. -/
def handlerDeclaration : Declaration :=
  ⟨"std::function<void(int)> ".toList, "handler".toList, [], [], " const".toList⟩

/-- The getter of a callback leaves no trace. -/
theorem handler_unanswered :
    let line := handlerDeclaration.text ++ ['\n']
    pairedLines line = [(line, line)] ∧ lineCode line = handlerDeclaration.text ∧
      handlerDeclaration.WellFormed ∧ methodsOf "Foo" line 0 line = (Table.empty, []) := by
  exact ⟨rfl, rfl, by decide, rfl⟩

end Header

end ChaiBind
