import ChaiBind.Header.Recognition
import ChaiBind.Proofs.Header.MarkerSites
import ChaiBind.Proofs.Header.MemberLines
import ChaiBind.Proofs.Text.StrippedLines

/-!
# Where diagnostics point

Every diagnostic of a header points at a character of it that is not blank (`PointsAt`): the
slash of a marker, or the first character of a line of the region that is rejected. The
rejected lines are found in the region, one below the other, and each has the number of its
line in the file (`Rejects`).

* `exists_region_split`: the region of a header is a part of its text.
* `exists_site_of_mem_regionOf`, `located_regionOf`, `located_enumerationsOf`: what is said about
  markers.
* `exists_found`: what is said about the lines of a region.
* `recognize_places`: all diagnostics of a header.
-/

namespace ChaiBind

open Text

namespace Marker

/-- A marker starts with a slash. -/
theorem exists_slash_of_mem_sites {m : Marker} {cs : List Char} {s : Site} (h : s ∈ m.sites cs) :
    ∃ before after, cs = before ++ '/' :: after ∧ s.start = byteLength before := by
  obtain ⟨pre, text, hcs, ⟨inner, rfl, -⟩, hstart, -⟩ := exists_of_mem_sites h
  exact ⟨pre, '/' :: '=' :: (inner ++ s.rest), hcs, hstart⟩

end Marker

namespace Header

/-- The location is that of a character of the text which is not blank. -/
def PointsAt (text : List Char) (l : Location) : Prop :=
  ∃ before c after, text = before ++ c :: after ∧ l.offset = byteLength before ∧ ¬ isBlank c ∧
    l = locate text l.offset

theorem pointsAt_locate {before after : List Char} {c : Char} (hc : ¬ isBlank c) :
    PointsAt (before ++ c :: after) (locate (before ++ c :: after) (byteLength before)) := by
  have hoffset := offset_locate_append before (c :: after)
  exact ⟨before, c, after, rfl, hoffset, hc, by rw [hoffset]⟩

theorem pointsAt_site {m : Marker} {cs : List Char} {s : Marker.Site} (h : s ∈ m.sites cs) :
    PointsAt cs (locate cs s.start) := by
  obtain ⟨before, after, rfl, hstart⟩ := Marker.exists_slash_of_mem_sites h
  rw [hstart]
  exact pointsAt_locate (by decide)

/-- A text says something behind the blanks at its start, unless it is blank. -/
theorem exists_leadingBlank_append {cs : List Char} {d : Char} (hd : d ∈ cs) (hblank : ¬ isBlank d) :
    ∃ c rest, cs = leadingBlank cs ++ c :: rest ∧ ¬ isBlank c := by
  have hne : trimStart cs ≠ [] := fun hnil => hblank (List.dropWhile_eq_nil_iff.1 hnil d hd)
  obtain ⟨c, rest, hrest⟩ := List.exists_cons_of_ne_nil hne
  have hhead := any_head?_dropWhile isBlank cs
  rw [← trimStart, hrest] at hhead
  refine ⟨c, rest, ?_, by simpa using hhead⟩
  rw [← hrest, leadingBlank_append_trimStart]

/-- The diagnostic points into a text. -/
def Located (text : List Char) (d : Diagnostic) : Prop :=
  ∃ l, d.location = some l ∧ PointsAt text l

/-! ## Markers -/

/-- What is said about the markers of regions. -/
def regionFindings : List Finding :=
  [.endWithoutBegin, .regionNotClosed, .furtherRegion, .regionOutsideClass]

/-- Each diagnostic about the markers of regions is a finding at one of them. -/
theorem exists_site_of_mem_regionOf {cs : List Char} {d : Diagnostic} (h : d ∈ (regionOf cs).2) :
    ∃ f ∈ regionFindings, ∃ m : Marker, ∃ s ∈ m.sites cs, f.reportAt (locate cs s.start) = d := by
  have hof : ∀ {f : Finding} {m : Marker} {ss : List Marker.Site}, f ∈ regionFindings →
      ss ⊆ m.sites cs → d ∈ ss.map (fun s => f.reportAt (locate cs s.start)) →
      ∃ f ∈ regionFindings, ∃ m : Marker, ∃ s ∈ m.sites cs, f.reportAt (locate cs s.start) = d := by
    intro f m ss hf hss hd
    obtain ⟨s, hs, hd⟩ := List.mem_map.1 hd
    exact ⟨f, hf, m, s, hss hs, hd⟩
  have hends : ∀ p : Marker.Site → Bool, (Marker.regionEnd.sites cs).filter p ⊆
      Marker.regionEnd.sites cs := fun p => List.filter_sublist.subset
  unfold regionOf at h
  cases hbegin : Marker.regionBegin.sites cs with
  | nil =>
    rw [hbegin] at h
    exact hof (by simp [regionFindings]) (List.Subset.refl _) h
  | cons first further =>
    have hfirst : [first] ⊆ Marker.regionBegin.sites cs := by
      rw [hbegin]
      simp
    have hfurther : further.head?.toList ⊆ Marker.regionBegin.sites cs := by
      rw [hbegin]
      cases further <;> simp
    rw [hbegin] at h
    dsimp only at h
    split at h
    · rcases List.mem_append.1 h with h | h
      · exact hof (by simp [regionFindings]) (hends _) h
      · exact hof (by simp [regionFindings]) hfirst h
    · split at h
      · rcases List.mem_append.1 h with h | h
        · rcases List.mem_append.1 h with h | h
          · exact hof (by simp [regionFindings]) (hends _) h
          · exact hof (by simp [regionFindings]) hfurther h
        · exact hof (by simp [regionFindings]) hfirst h
      · rcases List.mem_append.1 h with h | h
        · exact hof (by simp [regionFindings]) (hends _) h
        · exact hof (by simp [regionFindings]) hfurther h

theorem located_regionOf (cs : List Char) : ∀ d ∈ (regionOf cs).2, Located cs d := by
  intro d hd
  obtain ⟨f, -, m, s, hs, rfl⟩ := exists_site_of_mem_regionOf hd
  exact ⟨_, rfl, pointsAt_site hs⟩

theorem located_enumerationsOf (unit : SourceUnit) (scope : Option String) :
    ∀ d ∈ (enumerationsOf unit scope).2, Located unit.text.toList d := by
  intro d h
  obtain ⟨found, hfound, hd⟩ := List.mem_filterMap.1 h
  obtain ⟨s, hs, rfl⟩ := List.mem_map.1 hfound
  rw [enumerationAt] at hd
  cases henum : enumDeclaration? (skipTrivia s.rest) with
  | none =>
    rw [henum] at hd
    obtain rfl := Option.some.inj hd
    exact ⟨_, rfl, pointsAt_site hs⟩
  | some e =>
    rw [henum] at hd
    cases hd

/-! ## The region -/

/-- What stands between two markers, the second of which starts with a slash. -/
theorem exists_slice_split {m m' : Marker} {cs : List Char} {s e : Marker.Site}
    (hs : s ∈ m.sites cs) (he : e ∈ m'.sites cs) (hle : s.stop ≤ e.start) :
    ∃ before after, cs = before ++ slice cs s.stop e.start ++ '/' :: after ∧
      byteLength before = s.stop ∧ byteLength (before ++ slice cs s.stop e.start) = e.start := by
  obtain ⟨pre, marker, hcs, -, -, hstop⟩ := Marker.exists_of_mem_sites hs
  obtain ⟨upTo, rest, hcs', hstart⟩ := Marker.exists_slash_of_mem_sites he
  rw [← byteLength_append] at hstop
  rw [← List.append_assoc] at hcs
  rw [hstop, hstart] at hle
  have hsplit : cs = pre ++ marker ++ slice cs s.stop e.start ++ '/' :: rest := by
    rw [hstop, hstart, hcs]
    exact append_slice_append hle (hcs.symm.trans hcs')
  have hupTo : pre ++ marker ++ slice cs s.stop e.start = upTo :=
    List.append_cancel_right (hsplit.symm.trans hcs')
  exact ⟨pre ++ marker, rest, hsplit, hstop.symm, by rw [hupTo, hstart]⟩

/-- The region of a header is a part of its text. -/
theorem exists_region_split {cs : List Char} {r : Region} (h : (regionOf cs).1 = some r) :
    ∃ before after, cs = before ++ r.body ++ after ∧ byteLength before = r.bodyOffset := by
  rw [fst_regionOf] at h
  obtain ⟨first, hfirst, h⟩ := Option.bind_eq_some_iff.1 h
  obtain ⟨last, hlast, h⟩ := Option.bind_eq_some_iff.1 h
  obtain ⟨owner, -, rfl⟩ := Option.map_eq_some_iff.1 h
  have hle : first.stop ≤ last.start := by simpa using List.find?_some hlast
  obtain ⟨before, after, hcs, hbefore, -⟩ :=
    exists_slice_split (List.mem_of_head? hfirst) (List.mem_of_find?_eq_some hlast) hle
  exact ⟨before, '/' :: after, hcs, hbefore⟩

/-! ## Lines of the region -/

/-- A finding is what is said of a line of a region, without its comments, and the location has the
number of the line of the file on which that line stands. Only the first and the last line of the
region can be shorter than that, by what stands around the markers. -/
def Rejects (before : List Char) (r : Region) (after : List Char) (f : Finding) (l : Location) :
    Prop :=
  let text := before ++ r.body ++ after
  ∃ above line below, inclusiveLines r.body = above ++ line :: below ∧
    readLine r.className (countedCode text)
      (lineCode (strippedLine above.flatten line below.flatten)) = .reported f ∧
    ∃ upper lead trail lower, inclusiveLines text = upper ++ (lead ++ line ++ trail) :: lower ∧
      upper.flatten ++ lead = before ++ above.flatten ∧ l.line = upper.length + 1 ∧
        (above ≠ [] → lead = []) ∧ (below ≠ [] → trail = [])

/-- A finding about a region rejects a line of it, at a place in the region where the line starts to
say something. -/
structure IsPlaced (before : List Char) (r : Region) (after : List Char) (q : Finding × Location) :
    Prop where
  rejects : Rejects before r after q.1 q.2
  points : PointsAt (before ++ r.body ++ after) q.2
  inside : byteLength before ≤ q.2.offset ∧ q.2.offset < byteLength before + byteLength r.body

/-- Findings at places, as diagnostics. -/
def reports (found : List (Finding × Location)) : List Diagnostic :=
  found.map fun q => q.1.reportAt q.2

section

variable {before after : List Char} {r : Region} {f : Finding}
  {pre post : List (List Char × List Char)} {p : List Char × List Char}

/-- The location of a paired line, where it starts to say something. -/
def placeOf (before : List Char) (r : Region) (after : List Char)
    (pre : List (List Char × List Char)) (p : List Char × List Char) : Location :=
  locate (before ++ r.body ++ after)
    (byteLength before + linesLength pre + byteLength (leadingBlank p.1))

variable (hlines : pairedLines r.body = pre ++ p :: post)
include hlines

/-- A line that is rejected is rejected where it starts to say something. -/
theorem rejects_placeOf
    (hreading : readingAt r.className (countedCode (before ++ r.body ++ after))
      (depthThrough 0 pre) p = .reported f) :
    Rejects before r after f (placeOf before r after pre p) := by
  obtain ⟨below, hbody, hstripped⟩ := exists_of_zip_inclusiveLines hlines
  obtain ⟨upper, lead, trail, lower, htext, hupper, hlength, hwhole⟩ :=
    exists_inclusiveLines_around before after hbody
  have hcode := lineCode_ne_nil hreading
  rw [readingAt] at hreading
  split at hreading
  · refine ⟨pre.map Prod.fst, p.1, below, hbody, hstripped ▸ hreading, upper, lead, trail, lower,
      htext, hupper, ?_, hwhole⟩
    rw [placeOf, line_locate_of_split hlines hcode, hlength, List.length_map]
    omega
  · cases hreading

/-- The place is inside the region. -/
theorem pointsAt_placeOf (hcode : lineCode p.2 ≠ []) :
    PointsAt (before ++ r.body ++ after) (placeOf before r after pre p) ∧
      byteLength before ≤ (placeOf before r after pre p).offset ∧
      (placeOf before r after pre p).offset < byteLength before + byteLength r.body := by
  obtain ⟨below, hbody, -⟩ := exists_of_zip_inclusiveLines hlines
  obtain ⟨d, hd, hblank⟩ :=
    exists_not_isBlank (hlines ▸ List.mem_append_right _ List.mem_cons_self) hcode
  obtain ⟨c, line, hline, hc⟩ := exists_leadingBlank_append hd hblank
  have hregion : r.body = (pre.map Prod.fst).flatten ++ leadingBlank p.1 ++
      c :: (line ++ below.flatten) := by
    rw [← flatten_inclusiveLines r.body, hbody, List.flatten_append, List.flatten_cons]
    nth_rewrite 1 [hline]
    simp only [List.append_assoc, List.cons_append]
  have htext : before ++ r.body ++ after =
      (before ++ (pre.map Prod.fst).flatten ++ leadingBlank p.1) ++
        c :: (line ++ below.flatten ++ after) := by
    rw [hregion]
    simp only [List.append_assoc, List.cons_append]
  have hpos := c.utf8Size_pos
  rw [placeOf, linesLength, ← byteLength_append, ← byteLength_append, htext, offset_locate_append]
  refine ⟨pointsAt_locate hc, ?_, ?_⟩
  · simp only [byteLength_append]
    omega
  · rw [hregion]
    simp only [byteLength_append, byteLength_cons]
    omega

theorem isPlaced_placeOf
    (hreading : readingAt r.className (countedCode (before ++ r.body ++ after))
      (depthThrough 0 pre) p = .reported f) :
    IsPlaced before r after (f, placeOf before r after pre p) := by
  have hcode := lineCode_ne_nil hreading
  exact ⟨rejects_placeOf hlines hreading, (pointsAt_placeOf hlines hcode).1,
    (pointsAt_placeOf hlines hcode).2⟩

end

/-- The findings of the last lines of a region: each stands on its line, below the lines that are
left out and below the findings before it. -/
theorem exists_found_from (before : List Char) (r : Region) (after : List Char)
    {pre lines : List (List Char × List Char)} (hlines : pairedLines r.body = pre ++ lines) :
    ∃ found, findingsOf (before ++ r.body ++ after) (readLines r.className
        (countedCode (before ++ r.body ++ after)) (byteLength before + linesLength pre)
        (depthThrough 0 pre) lines) = reports found ∧
      found.Pairwise (·.2.line < ·.2.line) ∧
      ∀ q ∈ found, before.count '\n' + pre.length < q.2.line ∧ IsPlaced before r after q := by
  induction lines generalizing pre with
  | nil => exact ⟨[], rfl, List.Pairwise.nil, nofun⟩
  | cons p lines ih =>
    have hlength : linesLength (pre ++ [p]) = linesLength pre + byteLength p.1 := by
      simp [linesLength]
    have hdepth : depthThrough 0 (pre ++ [p]) = depthAfter (depthThrough 0 pre) (lineCode p.2) := by
      simp [depthThrough]
    have hnext : pairedLines r.body = (pre ++ [p]) ++ lines := by
      rw [hlines, List.append_assoc, List.singleton_append]
    obtain ⟨found, hfound, hsorted, hall⟩ := ih hnext
    rw [hlength, hdepth, ← Nat.add_assoc] at hfound
    have hbelow : ∀ q ∈ found, before.count '\n' + pre.length + 1 < q.2.line := by
      intro q hq
      have hline := (hall q hq).1
      rw [List.length_append, List.length_singleton] at hline
      omega
    have hrest : ∀ q ∈ found, before.count '\n' + pre.length < q.2.line ∧
        IsPlaced before r after q := by
      intro q hq
      exact ⟨Nat.lt_of_succ_lt (hbelow q hq), (hall q hq).2⟩
    rw [readLines_cons]
    cases hreading : readingAt r.className (countedCode (before ++ r.body ++ after))
        (depthThrough 0 pre) p with
    | ignored | member => exact ⟨found, hfound, hsorted, hrest⟩
    | reported f =>
      have hline : (placeOf before r after pre p).line = 1 + before.count '\n' + pre.length :=
        line_locate_of_split hlines (lineCode_ne_nil hreading)
      refine ⟨(f, placeOf before r after pre p) :: found, ?_, List.pairwise_cons.2 ⟨?_, hsorted⟩,
        List.forall_mem_cons.2 ⟨⟨?_, isPlaced_placeOf hlines hreading⟩, hrest⟩⟩
      · show _ :: findingsOf _ _ = _ :: reports found
        rw [← hfound]
        rfl
      · intro q hq
        have hq := hbelow q hq
        show (placeOf before r after pre p).line < _
        omega
      · show _ < (placeOf before r after pre p).line
        omega

/-- The findings of the lines of a region. -/
theorem exists_found (before : List Char) (r : Region) (after : List Char) :
    ∃ found, (methodsOf r.className r.body (byteLength before) (before ++ r.body ++ after)).2 =
        reports found ∧
      found.Pairwise (·.2.line < ·.2.line) ∧ ∀ q ∈ found, IsPlaced before r after q := by
  have hlines : pairedLines r.body = [] ++ pairedLines r.body := rfl
  obtain ⟨found, hfound, hsorted, hall⟩ := exists_found_from before r after hlines
  exact ⟨found, hfound, hsorted, fun q hq => (hall q hq).2⟩

/-! ## The header -/

theorem diagnostics_recognize (unit : SourceUnit) :
    (recognize unit).diagnostics = ((regionOf unit.text.toList).2 ++
      ((regionOf unit.text.toList).1.map fun r =>
        (methodsOf r.className r.body r.bodyOffset unit.text.toList).2).getD [] ++
      (enumerationsOf unit (namespaceOf unit.text.toList)).2).map (·.inFile unit.path) := by
  simp only [recognize]
  cases (regionOf unit.text.toList).1 <;> rfl

/-- All diagnostics of a header are about its file and point at a character of it that is not
blank. Those of the members point into the region, each at a line below the ones before it, and
each is about that line of the file. -/
theorem recognize_places (unit : SourceUnit) :
    let text := unit.text.toList
    (∀ d ∈ (recognize unit).diagnostics, d.path = some unit.path ∧ Located text d) ∧
      ∀ r, (regionOf text).1 = some r →
        ∃ before after found, text = before ++ r.body ++ after ∧ byteLength before = r.bodyOffset ∧
          (methodsOf r.className r.body r.bodyOffset text).2 = reports found ∧
          (recognize unit).diagnostics = ((regionOf text).2 ++ reports found ++
            (enumerationsOf unit (namespaceOf text)).2).map (·.inFile unit.path) ∧
          found.Pairwise (·.2.line < ·.2.line) ∧ ∀ q ∈ found, IsPlaced before r after q := by
  intro text
  have hregion : ∀ r, (regionOf text).1 = some r →
      ∃ before after found, text = before ++ r.body ++ after ∧ byteLength before = r.bodyOffset ∧
        (methodsOf r.className r.body r.bodyOffset text).2 = reports found ∧
        found.Pairwise (·.2.line < ·.2.line) ∧ ∀ q ∈ found, IsPlaced before r after q := by
    intro r hr
    obtain ⟨before, after, htext, hoffset⟩ := exists_region_split hr
    obtain ⟨found, hfound, hsorted, hall⟩ := exists_found before r after
    rw [hoffset, ← htext] at hfound
    exact ⟨before, after, found, htext, hoffset, hfound, hsorted, hall⟩
  refine ⟨?_, fun r hr => ?_⟩
  · rw [diagnostics_recognize, List.forall_mem_map]
    suffices h : ∀ d ∈ ((regionOf text).1.map fun r =>
        (methodsOf r.className r.body r.bodyOffset text).2).getD [], Located text d by
      have hall := List.forall_mem_append.2 ⟨List.forall_mem_append.2 ⟨located_regionOf text, h⟩,
        located_enumerationsOf unit (namespaceOf text)⟩
      exact fun d hd => ⟨rfl, hall d hd⟩
    cases hr : (regionOf text).1 with
    | none => exact nofun
    | some r =>
      obtain ⟨before, after, found, htext, -, hfound, -, hall⟩ := hregion r hr
      show ∀ d ∈ (methodsOf r.className r.body r.bodyOffset text).2, Located text d
      rw [hfound]
      intro d hd
      obtain ⟨q, hq, rfl⟩ := List.mem_map.1 hd
      exact ⟨q.2, rfl, htext ▸ (hall q hq).points⟩
  · obtain ⟨before, after, found, htext, hoffset, hfound, hsorted, hall⟩ := hregion r hr
    refine ⟨before, after, found, htext, hoffset, hfound, ?_, hsorted, hall⟩
    rw [diagnostics_recognize, ← hfound, hr]
    rfl

/-- A header with a member that goes on over its line, behind a comment that started on the line
above and has a character of two bytes in it. -/
def brokenHeader : SourceUnit :=
  ⟨"src/broken.h", "broken.h",
    "class Broken \x7b\n//= BEGIN SCRIPTABLE\n/* \u00e9\n */ int f(\n//= END SCRIPTABLE\n\x7d;\n"⟩

/-- The diagnostic stands on the line of the member, behind the blank at its start. -/
theorem broken_located :
    ∃ r before after q, (regionOf brokenHeader.text.toList).1 = some r ∧
      (recognize brokenHeader).diagnostics = [(q.1.reportAt q.2).inFile "src/broken.h"] ∧
      q.2 = ⟨43, 4, 2⟩ ∧ IsPlaced before r after q := by
  have hregion : (regionOf brokenHeader.text.toList).1 =
      some ⟨"Broken", "\n/* \u00e9\n */ int f(\n".toList, 35⟩ := by decide +kernel
  obtain ⟨before, after, found, -, -, hfound, hall, -, hplaced⟩ :=
    (recognize_places brokenHeader).2 _ hregion
  have hlocations : found.map (fun q => some q.2) = [some ⟨43, 4, 2⟩] := by
    have hmap : found.map (fun q => some q.2) = (reports found).map (·.location) := by
      rw [reports, List.map_map]
      rfl
    rw [hmap, ← hfound]
    rfl
  obtain ⟨q, rfl⟩ : ∃ q, found = [q] := by
    rw [← List.length_eq_one_iff, ← List.length_map (f := fun q => some q.2), hlocations]
    rfl
  refine ⟨_, before, after, q, hregion, ?_, ?_, hplaced q (List.mem_singleton_self q)⟩
  · rw [hall]
    rfl
  · exact Option.some.inj (List.cons.inj hlocations).1

end Header

end ChaiBind
