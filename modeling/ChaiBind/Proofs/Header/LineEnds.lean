import ChaiBind.Header.Recognition
import ChaiBind.Proofs.Header.Enumerators
import ChaiBind.Proofs.Text.Places

/-!
# Headers around the end of a line

A header is taken apart at the end of one of its lines, where nothing stands or a
comment (`IsFilling`). What is in front of the line, and what is behind it, is found in
the same places whatever stands there, only further on: markers (`sites_filled`), classes
(`ownerName_before`, `ownerName_behind`) and, with these, the bases, the region and the
enumerations of the header.
-/

namespace ChaiBind

open Text

namespace Marker

theorem sites_newline (m : Marker) : m.sites ['\n'] = [] := by cases m <;> rfl

/-- A marker on whole lines has the end of its line behind it. -/
theorem newline_mem_of_mem_sites {m : Marker} {u : List Char} {s : Site} (hu : EndsLine u)
    (hs : s ∈ m.sites u) : '\n' ∈ s.rest := by
  rcases hu.eq_nil_or with rfl | ⟨ds, rfl⟩
  · cases m <;> cases hs
  · have hends := endsMarker_of_startsLine (startsLine_newline [])
    rw [sites_append m (.inr hends), sites_newline, List.map_nil, List.append_nil] at hs
    obtain ⟨s, -, rfl⟩ := List.mem_map.1 hs
    exact List.mem_append_right s.rest List.mem_cons_self

/-- No marker starts where a line starts that has just been left. -/
theorem start_pos_of_mem_sites {m : Marker} {cs : List Char} {s : Site} (hcs : StartsLine cs)
    (hs : s ∈ m.sites cs) : 0 < s.start := by
  rcases hcs.eq_nil_or with rfl | ⟨ds, rfl⟩
  · cases m <;> cases hs
  · have hnewline : EndsLine ['\n'] := endsLine_append_newline []
    have hsites := sites_append m (v := ds) (.inl hnewline)
    rw [sites_newline, List.map_nil, List.nil_append, List.singleton_append] at hsites
    rw [hsites] at hs
    obtain ⟨s, -, rfl⟩ := List.mem_map.1 hs
    exact Nat.add_pos_left Nat.one_pos _

theorem start_le_stop_of_mem_sites {m : Marker} {cs : List Char} {s : Site} (hs : s ∈ m.sites cs) :
    s.start ≤ s.stop ∧ s.stop ≤ byteLength cs := by
  obtain ⟨pre, text, rfl, -, hstart, hstop⟩ := exists_of_mem_sites hs
  simp only [hstart, hstop, byteLength_append]
  omega

theorem sites_lineComment {m : Marker} {c : List Char} (h : m.sites c = []) :
    m.sites (lineComment c) = [] := by
  have hshift := filterMap_siteAt?_cursorsFrom m (some ' ') none 4 0 c
  rw [← cursors, ← sites, h, List.map_nil] at hshift
  exact hshift

end Marker

namespace Header

/-! ## What is recognized of a header -/

/-- The name of the class that owns a place. -/
def ownerName (cs : List Char) (offset : Nat) : Option String :=
  (owningClass? (classDeclarations cs) offset).map (·.name)

/-- The class that owns a place in front of a break is declared in front of the break. -/
theorem ownerName_append_of_le {u v : List Char} (h : EndsLine u ∨ StartsLine v) {offset : Nat}
    (hoffset : offset ≤ byteLength u) : ownerName (u ++ v) offset = ownerName u offset := by
  have hbehind : ∀ d ∈ (classDeclarations v).map (ClassDeclaration.shift (byteLength u)),
      offset ≤ d.offset := by
    intro d hd
    obtain ⟨d, -, rfl⟩ := List.mem_map.1 hd
    exact Nat.le_trans hoffset (Nat.le_add_right _ _)
  rw [ownerName, classDeclarations_append h, owningClass?_append_of_le hbehind, ownerName]

/-- The class that owns a place behind the end of a line is declared there if one is, or else the
last one in front of it. -/
theorem ownerName_append_add {u v : List Char} (h : StartsLine v) {offset : Nat}
    (hoffset : 0 < offset) :
    ownerName (u ++ v) (byteLength u + offset) =
      (ownerName v offset).or ((classDeclarations u).getLast?.map (·.name)) := by
  have hbefore : ∀ d ∈ classDeclarations u, d.offset < byteLength u + offset := by
    intro d hd
    have hle := offset_le_of_mem_classDeclarations hd
    omega
  have hshift : ∀ n, (·.name) ∘ ClassDeclaration.shift n = (·.name) := fun _ => rfl
  rw [ownerName, classDeclarations_append (.inr h), owningClass?_append hbefore, Option.map_or,
    Option.map_map, hshift, ownerName]

/-- A line declares what it declares with more behind it if it declares the same class. -/
theorem classDeclarations_append_line {lines line w : List Char} (hlines : EndsLine lines)
    (hsame : '\n' ∉ line ++ w) (hname : declaredName? (line ++ w) = declaredName? line) :
    classDeclarations (lines ++ line ++ w) = classDeclarations (lines ++ line) := by
  have hline : '\n' ∉ line := fun hmem => hsame (List.mem_append_left w hmem)
  rw [List.append_assoc, classDeclarations_append (.inl hlines), classDeclarations_line hsame, hname,
    ← classDeclarations_line hline, ← classDeclarations_append (.inl hlines)]

theorem basesOf_eq (cs : List Char) :
    basesOf cs = ((Marker.bases.sites cs).head?.map fun s =>
      (((words (s.rest.takeWhile (· ≠ '\n'))).map trimCommas).filter (· ≠ [])).map
        String.ofList).getD [] := by
  rw [basesOf]
  cases Marker.bases.sites cs <;> rfl

/-- The bases of a header are listed in its first part, on a line that ends there, or else in its
last part. -/
theorem basesOf_of_sites {cs u v rest : List Char} {n : Nat}
    (hsites : Marker.bases.sites cs = (Marker.bases.sites u).map (Marker.Site.extend v) ++
      (Marker.bases.sites rest).map (Marker.Site.shift n))
    (hline : ∀ s ∈ (Marker.bases.sites u).head?, '\n' ∈ s.rest) :
    basesOf cs = if Marker.bases.sites u = [] then basesOf rest else basesOf u := by
  cases hbases : Marker.bases.sites u with
  | nil =>
    rw [hbases, List.map_nil, List.nil_append] at hsites
    rw [if_pos rfl, basesOf_eq, hsites, List.head?_map, Option.map_map, basesOf_eq]
    rfl
  | cons s ss =>
    rw [hbases] at hline
    have hnewline : '\n' ∈ s.rest := hline s rfl
    have htake : (s.rest ++ v).takeWhile (· ≠ '\n') = s.rest.takeWhile (· ≠ '\n') := by
      rw [List.takeWhile_append, if_neg]
      intro hall
      have hstarts := List.takeWhile_prefix (l := s.rest) (fun c => decide (c ≠ '\n'))
      rw [← hstarts.eq_of_length hall] at hnewline
      simpa using List.mem_takeWhile_imp hnewline
    rw [hbases, List.map_cons, List.cons_append] at hsites
    rw [if_neg (List.cons_ne_nil s ss), basesOf_eq, hsites, basesOf_eq, hbases]
    simp only [List.head?_cons, Option.map_some, Marker.Site.extend, htake]

/-- The class of the region of a header and the lines of code in the region. -/
def regionCode (cs : List Char) : Option (String × List (List Char)) :=
  (regionOf cs).1.map fun r => (r.className, codeLines r.body)

/-- The region behind a marker that stands between two offsets. -/
def regionFrom (cs : List Char) (start stop : Nat) : Option (String × List (List Char)) :=
  ((Marker.regionEnd.sites cs).find? (stop ≤ ·.start)).bind fun last =>
    (ownerName cs start).map fun name => (name, codeLines (slice cs stop last.start))

theorem regionCode_eq (cs : List Char) :
    regionCode cs = (Marker.regionBegin.sites cs).head?.bind fun first =>
      regionFrom cs first.start first.stop := by
  rw [regionCode, fst_regionOf]
  simp only [regionFrom, ownerName, Option.map_bind, Option.map_map, Function.comp_def]

/-- An enumeration as it is read at a marker, with what its header and its class add to that. -/
def enumerationIn (path includePath : String) (scope owner : Option String)
    (e : Bool × List Char × List String) : Enumeration :=
  { name := qualify owner (String.ofList e.2.1)
    scope
    includePath
    path
    isScoped := e.1
    values := e.2.2 }

theorem fst_enumerationsOf (path includePath : String) (scope : Option String) (cs : List Char) :
    (enumerationsOf ⟨path, includePath, String.ofList cs⟩ scope).1 =
      (Marker.enumeration.sites cs).filterMap fun s =>
        (readEnumeration? s.rest).map (enumerationIn path includePath scope (ownerName cs s.start)) := by
  rw [enumerationsOf, List.filterMap_map]
  simp only [String.toList_ofList]
  refine List.filterMap_congr fun s _ => ?_
  simp only [Function.comp_apply, enumerationAt, readEnumeration?]
  cases enumDeclaration? (skipTrivia s.rest) <;> rfl

theorem snd_enumerationsOf (path includePath : String) (scope : Option String) (cs : List Char) :
    (enumerationsOf ⟨path, includePath, String.ofList cs⟩ scope).2 =
      (Marker.enumeration.sites cs).filterMap fun s =>
        if (readEnumeration? s.rest).isSome then none
        else some (Finding.enumerationMissing.reportAt (locate cs s.start)) := by
  simp only [enumerationsOf, String.toList_ofList, List.filterMap_map]
  refine List.filterMap_congr fun s _ => ?_
  have hread : (readEnumeration? s.rest).isSome = (enumDeclaration? (skipTrivia s.rest)).isSome :=
    Option.isSome_map
  simp only [Function.comp_apply, enumerationAt, String.toList_ofList]
  rw [hread]
  cases enumDeclaration? (skipTrivia s.rest) <;> rfl

/-! ## The end of a line -/

theorem startsLine_takeBytes {cs : List Char} (hcs : StartsLine cs) (n : Nat) :
    StartsLine (takeBytes n cs) := by
  intro d hd
  obtain ⟨ds, hds⟩ := takeBytes_isPrefix n cs
  refine hcs d ?_
  rw [← hds, List.head?_append, Option.mem_def.1 hd]
  rfl

/-- The end of a line at which a comment may be put: `lines` come before the line, `rest` behind it,
and the line ends in code. -/
structure EndsInCode (lines line c rest : List Char) : Prop where
  whole : EndsLine lines
  same : '\n' ∉ line
  ends : StartsLine rest
  code : ∃ afterWord, Scan.start.after (lines ++ line) none = .code afterWord
  /-- The comment ends with the line and has no marker. -/
  comment : '\n' ∉ c
  unmarked : ∀ m : Marker, m.sites c = []

/-- What stands at the end of a line: nothing or a comment. -/
inductive IsFilling (c : List Char) : List Char → Prop
  | empty : IsFilling c []
  | comment : IsFilling c (lineComment c)

section

variable {lines line c rest w : List Char} (h : EndsInCode lines line c rest) (hw : IsFilling c w)
include h hw

theorem codeLines_filled {u v : List Char} {afterWord : Bool} (hv : StartsLine v)
    (hcode : Scan.start.after u none = .code afterWord) :
    codeLines (u ++ (w ++ v)) = codeLines (u ++ v) := by
  cases hw with
  | empty => rfl
  | comment => exact codeLines_comment h.comment hv hcode

/-! ## Markers -/

theorem sites_filled (m : Marker) (hline : m.sites line = []) :
    m.sites (lines ++ line ++ (w ++ rest)) =
      (m.sites lines).map (Marker.Site.extend (line ++ (w ++ rest))) ++
        (m.sites rest).map (Marker.Site.shift (byteLength (lines ++ line ++ w))) := by
  have hrest := Marker.endsMarker_of_startsLine h.ends
  have hfilled : m.sites (lines ++ line ++ w) =
      (m.sites lines).map (Marker.Site.extend (line ++ w)) := by
    have hu : m.sites (lines ++ line) = (m.sites lines).map (Marker.Site.extend line) := by
      rw [Marker.sites_append m (.inl h.whole), hline, List.map_nil, List.append_nil]
    cases hw with
    | empty => rw [List.append_nil, List.append_nil, hu]
    | comment =>
      rw [Marker.sites_append m (.inr (Marker.endsMarker_lineComment c)), hu,
        Marker.sites_lineComment (h.unmarked m), List.map_nil, List.append_nil, List.map_map]
      refine List.map_congr_left fun s _ => ?_
      simp only [Function.comp_apply, Marker.Site.extend, List.append_assoc]
  rw [← List.append_assoc, Marker.sites_append m (.inr hrest), hfilled, List.map_map]
  congr 1
  refine List.map_congr_left fun s _ => ?_
  simp only [Function.comp_apply, Marker.Site.extend, List.append_assoc]

/-- The first marker past a place in front of the line. -/
theorem find?_sites_before (m : Marker) (hline : m.sites line = []) {stop : Nat}
    (hstop : stop ≤ byteLength lines) :
    (m.sites (lines ++ line ++ (w ++ rest))).find? (stop ≤ ·.start) =
      (((m.sites lines).find? (stop ≤ ·.start)).map (Marker.Site.extend (line ++ (w ++ rest)))).or
        ((m.sites rest).head?.map (Marker.Site.shift (byteLength (lines ++ line ++ w)))) := by
  have hbehind : ∀ s ∈ m.sites rest, decide (stop ≤
      (Marker.Site.shift (byteLength (lines ++ line ++ w)) s).start) = true := by
    intro s _
    simp only [Marker.Site.shift, byteLength_append, decide_eq_true_eq]
    omega
  rw [sites_filled h hw m hline, List.find?_append, List.find?_map, List.find?_map]
  congr 2
  cases hsites : m.sites rest with
  | nil => rfl
  | cons s ss =>
    rw [hsites] at hbehind
    exact List.find?_cons_of_pos (hbehind s List.mem_cons_self)

/-- The first marker past a place behind the line. -/
theorem find?_sites_behind (m : Marker) (hline : m.sites line = []) {stop : Nat} (hstop : 0 < stop) :
    (m.sites (lines ++ line ++ (w ++ rest))).find?
        (byteLength (lines ++ line ++ w) + stop ≤ ·.start) =
      ((m.sites rest).find? (stop ≤ ·.start)).map
        (Marker.Site.shift (byteLength (lines ++ line ++ w))) := by
  have hbefore : ((m.sites lines).map (Marker.Site.extend (line ++ (w ++ rest)))).find?
      (byteLength (lines ++ line ++ w) + stop ≤ ·.start) = none := by
    rw [List.find?_eq_none]
    intro s hs
    obtain ⟨t, ht, rfl⟩ := List.mem_map.1 hs
    have hle := Marker.start_le_stop_of_mem_sites ht
    simp only [Marker.Site.extend, byteLength_append, decide_eq_true_eq]
    omega
  have hshift : ∀ s : Marker.Site, decide (byteLength (lines ++ line ++ w) + stop ≤
      (Marker.Site.shift (byteLength (lines ++ line ++ w)) s).start) = decide (stop ≤ s.start) := by
    intro s
    simp only [Marker.Site.shift, Nat.add_le_add_iff_left]
  rw [sites_filled h hw m hline, List.find?_append, hbefore, Option.none_or, List.find?_map]
  simp only [Function.comp_def, hshift]

/-! ## Owners -/

omit hw in
theorem ownerName_before {offset : Nat} (hoffset : offset ≤ byteLength lines) :
    ownerName (lines ++ line ++ (w ++ rest)) offset = ownerName lines offset := by
  rw [List.append_assoc, ownerName_append_of_le (.inl h.whole) hoffset]

theorem ownerName_behind (hname : declaredName? (line ++ w) = declaredName? line) {offset : Nat}
    (hoffset : 0 < offset) :
    ownerName (lines ++ line ++ (w ++ rest)) (byteLength (lines ++ line ++ w) + offset) =
      (ownerName rest offset).or ((classDeclarations (lines ++ line)).getLast?.map (·.name)) := by
  have hsame : '\n' ∉ line ++ w := by
    rw [List.mem_append, not_or]
    refine ⟨h.same, ?_⟩
    cases hw with
    | empty => exact List.not_mem_nil
    | comment => simpa [lineComment] using h.comment
  rw [← List.append_assoc, ownerName_append_add h.ends hoffset,
    classDeclarations_append_line h.whole hsame hname]

/-! ## Bases -/

theorem basesOf_filled (hline : Marker.bases.sites line = []) :
    basesOf (lines ++ line ++ (w ++ rest)) =
      if Marker.bases.sites lines = [] then basesOf rest else basesOf lines :=
  basesOf_of_sites (sites_filled h hw .bases hline) fun _ hs =>
    Marker.newline_mem_of_mem_sites h.whole (List.mem_of_head? hs)

/-! ## Regions -/

/-- A region that ends in front of the line. -/
theorem regionCode_of_closed (hline : ∀ m : Marker, m.sites line = []) {first last : Marker.Site}
    (hfirst : (Marker.regionBegin.sites lines).head? = some first)
    (hlast : (Marker.regionEnd.sites lines).find? (first.stop ≤ ·.start) = some last) :
    regionCode (lines ++ line ++ (w ++ rest)) = (ownerName lines first.start).map fun name =>
      (name, codeLines (slice lines first.stop last.start)) := by
  have hmem : first ∈ Marker.regionBegin.sites lines := List.mem_of_head? hfirst
  obtain ⟨hstart, hstop⟩ := Marker.start_le_stop_of_mem_sites hmem
  have hend := Marker.start_le_stop_of_mem_sites (List.mem_of_find?_eq_some hlast)
  obtain ⟨pre, text, hlines, -, -, hbytes⟩ := Marker.exists_of_mem_sites hmem
  have hsplit : lines = (pre ++ text) ++ first.rest := by rw [hlines, List.append_assoc]
  have hslice : ∀ v, slice (lines ++ v) first.stop last.start =
      slice lines first.stop last.start := by
    intro v
    have hle : last.start ≤ byteLength (pre ++ text) + byteLength first.rest := by
      rw [← byteLength_append, ← hsplit]
      exact Nat.le_trans hend.1 hend.2
    rw [← byteLength_append] at hbytes
    rw [hsplit, hbytes, List.append_assoc (pre ++ text), slice_append_of_le _ hle]
  rw [regionCode_eq, sites_filled h hw _ (hline _), List.head?_append, List.head?_map, hfirst,
    Option.map_some, Option.some_or, Option.bind_some]
  simp only [Marker.Site.extend]
  rw [regionFrom, find?_sites_before h hw _ (hline _) hstop, hlast, Option.map_some, Option.some_or,
    Option.bind_some, ownerName_before h (Nat.le_trans hstart hstop)]
  simp only [Marker.Site.extend, List.append_assoc, hslice]

/-- A region that is open at the line, which ends in code of the region too. -/
theorem regionCode_of_open (hline : ∀ m : Marker, m.sites line = []) {first : Marker.Site}
    (hfirst : (Marker.regionBegin.sites lines).head? = some first)
    (hopen : (Marker.regionEnd.sites lines).find? (first.stop ≤ ·.start) = none)
    {afterWord : Bool} (hcode : Scan.start.after (first.rest ++ line) none = .code afterWord) :
    regionCode (lines ++ line ++ (w ++ rest)) =
      (Marker.regionEnd.sites rest).head?.bind fun last =>
        (ownerName lines first.start).map fun name =>
          (name, codeLines (first.rest ++ line ++ takeBytes last.start rest)) := by
  have hmem : first ∈ Marker.regionBegin.sites lines := List.mem_of_head? hfirst
  obtain ⟨hstart, hstop⟩ := Marker.start_le_stop_of_mem_sites hmem
  obtain ⟨pre, text, hlines, -, -, hbytes⟩ := Marker.exists_of_mem_sites hmem
  have hslice : ∀ stop, slice (lines ++ line ++ (w ++ rest)) first.stop
        (byteLength (lines ++ line ++ w) + stop) =
      first.rest ++ line ++ (w ++ takeBytes stop rest) := by
    intro stop
    have htext : lines ++ line ++ (w ++ rest) =
        (pre ++ text) ++ ((first.rest ++ line ++ w) ++ rest) := by
      rw [hlines]
      simp only [List.append_assoc]
    have hbehind : byteLength (lines ++ line ++ w) + stop =
        byteLength (pre ++ text) + (byteLength (first.rest ++ line ++ w) + stop) := by
      rw [hlines]
      simp only [byteLength_append, Nat.add_assoc]
    rw [← byteLength_append] at hbytes
    rw [htext, hbehind, hbytes, slice_over, List.append_assoc]
  rw [regionCode_eq, sites_filled h hw _ (hline _), List.head?_append, List.head?_map, hfirst,
    Option.map_some, Option.some_or, Option.bind_some]
  simp only [Marker.Site.extend]
  rw [regionFrom, find?_sites_before h hw _ (hline _) hstop, hopen, Option.map_none, Option.none_or,
    ownerName_before h (Nat.le_trans hstart hstop)]
  cases (Marker.regionEnd.sites rest).head? with
  | none => rfl
  | some last =>
    have hstarts := startsLine_takeBytes h.ends last.start
    simp only [Option.map_some, Option.bind_some, Marker.Site.shift, hslice,
      codeLines_filled h hw hstarts hcode]

/-- A region that begins behind the line. -/
theorem regionCode_behind (hline : ∀ m : Marker, m.sites line = [])
    (hname : declaredName? (line ++ w) = declaredName? line)
    (hfirst : (Marker.regionBegin.sites lines).head? = none) :
    regionCode (lines ++ line ++ (w ++ rest)) =
      (Marker.regionBegin.sites rest).head?.bind fun first =>
        ((Marker.regionEnd.sites rest).find? (first.stop ≤ ·.start)).bind fun last =>
          ((ownerName rest first.start).or
              ((classDeclarations (lines ++ line)).getLast?.map (·.name))).map
            fun name => (name, codeLines (slice rest first.stop last.start)) := by
  rw [regionCode_eq, sites_filled h hw _ (hline _), List.head?_append, List.head?_map, hfirst,
    Option.map_none, Option.none_or, List.head?_map]
  cases hbehind : (Marker.regionBegin.sites rest).head? with
  | none => rfl
  | some first =>
    have hmem : first ∈ Marker.regionBegin.sites rest := List.mem_of_head? hbehind
    have hpos := Marker.start_pos_of_mem_sites h.ends hmem
    have hstart := (Marker.start_le_stop_of_mem_sites hmem).1
    have hslice : ∀ stop, slice (lines ++ line ++ (w ++ rest))
          (byteLength (lines ++ line ++ w) + first.stop) (byteLength (lines ++ line ++ w) + stop) =
        slice rest first.stop stop := by
      intro stop
      rw [← List.append_assoc, slice_append_add]
    rw [Option.map_some, Option.bind_some, Option.bind_some]
    simp only [Marker.Site.shift]
    rw [regionFrom, find?_sites_behind h hw _ (hline _) (Nat.lt_of_lt_of_le hpos hstart),
      ownerName_behind h hw hname hpos]
    cases (Marker.regionEnd.sites rest).find? (first.stop ≤ ·.start) with
    | none => rfl
    | some last => simp only [Option.map_some, Option.bind_some, Marker.Site.shift, hslice]

theorem regionCode_filled (hline : ∀ m : Marker, m.sites line = [])
    (hname : declaredName? (line ++ w) = declaredName? line)
    (hregion : ∀ s ∈ (Marker.regionBegin.sites lines).head?,
      (∀ e ∈ Marker.regionEnd.sites lines, e.start < s.stop) →
        ∃ afterWord, Scan.start.after (s.rest ++ line) none = .code afterWord) :
    regionCode (lines ++ line ++ (w ++ rest)) = regionCode (lines ++ line ++ rest) := by
  have hempty : IsFilling c [] := .empty
  have hplain : lines ++ line ++ rest = lines ++ line ++ ([] ++ rest) := rfl
  have hnone : declaredName? (line ++ []) = declaredName? line := by rw [List.append_nil]
  rw [hplain]
  cases hfirst : (Marker.regionBegin.sites lines).head? with
  | none =>
    rw [regionCode_behind h hw hline hname hfirst, regionCode_behind h hempty hline hnone hfirst]
  | some first =>
    cases hlast : (Marker.regionEnd.sites lines).find? (first.stop ≤ ·.start) with
    | some last =>
      rw [regionCode_of_closed h hw hline hfirst hlast, regionCode_of_closed h hempty hline hfirst hlast]
    | none =>
      have hopen : ∀ e ∈ Marker.regionEnd.sites lines, e.start < first.stop := by
        intro e he
        simpa using List.find?_eq_none.1 hlast e he
      obtain ⟨afterWord, hcode⟩ := hregion first hfirst hopen
      rw [regionCode_of_open h hw hline hfirst hlast hcode,
        regionCode_of_open h hempty hline hfirst hlast hcode]

/-! ## Enumerations -/

section Enumerations

variable (path includePath : String) (scope : Option String)

/-- The enumerations whose markers stand in front of the line, and those behind it. -/
theorem fst_enumerationsOf_around (hline : ∀ m : Marker, m.sites line = [])
    (hname : declaredName? (line ++ w) = declaredName? line)
    (henums : ∀ s ∈ Marker.enumeration.sites lines, AdmitsComment (s.rest ++ line) c rest) :
    (enumerationsOf ⟨path, includePath, String.ofList (lines ++ line ++ (w ++ rest))⟩ scope).1 =
      ((Marker.enumeration.sites lines).filterMap fun s =>
        (readEnumeration? (s.rest ++ line ++ rest)).map
          (enumerationIn path includePath scope (ownerName lines s.start))) ++
      (Marker.enumeration.sites rest).filterMap fun s =>
        (readEnumeration? s.rest).map (enumerationIn path includePath scope
          ((ownerName rest s.start).or ((classDeclarations (lines ++ line)).getLast?.map (·.name)))) := by
  rw [fst_enumerationsOf, sites_filled h hw _ (hline _), List.filterMap_append, List.filterMap_map,
    List.filterMap_map]
  congr 1
  · refine List.filterMap_congr fun s hs => ?_
    have hle := Marker.start_le_stop_of_mem_sites hs
    have hread : readEnumeration? (s.rest ++ line ++ (w ++ rest)) =
        readEnumeration? (s.rest ++ line ++ rest) := by
      cases hw with
      | empty => rfl
      | comment => exact (henums s hs).readEnumeration?_eq h.comment h.ends
    simp only [Function.comp_apply, Marker.Site.extend, ← List.append_assoc s.rest]
    rw [hread, ownerName_before h (Nat.le_trans hle.1 hle.2)]
  · refine List.filterMap_congr fun s hs => ?_
    simp only [Function.comp_apply, Marker.Site.shift]
    rw [ownerName_behind h hw hname (Marker.start_pos_of_mem_sites h.ends hs)]

theorem fst_enumerationsOf_filled (hline : ∀ m : Marker, m.sites line = [])
    (hname : declaredName? (line ++ w) = declaredName? line)
    (henums : ∀ s ∈ Marker.enumeration.sites lines, AdmitsComment (s.rest ++ line) c rest) :
    (enumerationsOf ⟨path, includePath, String.ofList (lines ++ line ++ (w ++ rest))⟩ scope).1 =
      (enumerationsOf ⟨path, includePath, String.ofList (lines ++ line ++ rest)⟩ scope).1 := by
  have hplain : lines ++ line ++ rest = lines ++ line ++ ([] ++ rest) := rfl
  have hnone : declaredName? (line ++ []) = declaredName? line := by rw [List.append_nil]
  rw [hplain, fst_enumerationsOf_around h hw path includePath scope hline hname henums,
    fst_enumerationsOf_around h .empty path includePath scope hline hnone henums]

end Enumerations

end

end Header

end ChaiBind
