import ChaiBind.Proofs.Header.Comments
import ChaiBind.Proofs.Header.DiagnosticPlaces
import ChaiBind.Proofs.Header.JoinedRegions
import ChaiBind.Proofs.Header.OpeningMarkers

/-!
# Regions with a remark at their start

A remark behind the marker that begins a region is at the start of the region, which is otherwise that
of the header without the remark (`regionOf_remark`). As the remark stands on one line and declares no
class, everything else is found on the lines on which it is without it.

* `classDeclarations_remark`, `basesOf_remark`, `fst_enumerationsOf_remark`: what is declared around it.
* `exists_owner_remark`: what a header with a region has in front of the remark and behind it.
-/

namespace ChaiBind

open Text Header

namespace Diagnostic

/-- The kind of the diagnostic and the line it points at. -/
def codeAndLine (d : Diagnostic) : String × Option Nat := (d.code, d.location.map (·.line))

end Diagnostic

namespace Header

section

variable {lines line w rest : List Char} (h : IsRemark lines line w rest)
include h

/-! ## Lines -/

omit h in
theorem line_locate_site {m : Marker} {u : List Char} {s : Marker.Site} (hs : s ∈ m.sites u)
    (v : List Char) : (locate (u ++ v) s.start).line = (locate u s.start).line := by
  obtain ⟨pre, text, rfl, -, hstart, -⟩ := Marker.exists_of_mem_sites hs
  rw [hstart, List.append_assoc, line_locate_append, line_locate_append]

theorem line_locate_remark (n : Nat) :
    (locate (lines ++ line ++ (w ++ rest)) (byteLength (lines ++ line ++ w) + n)).line =
      (lines ++ line).count '\n' + (locate rest n).line := by
  have hw : '\n' ∉ w := fun hmem => h.same (List.mem_append_right line hmem)
  rw [← List.append_assoc, line_locate_append_add, List.count_append, List.count_eq_zero.2 hw,
    Nat.add_zero]

/-! ## Owners -/

theorem classDeclarations_remark :
    classDeclarations (lines ++ line ++ (w ++ rest)) = classDeclarations (lines ++ line) ++
      (classDeclarations rest).map (ClassDeclaration.shift (byteLength (lines ++ line ++ w))) := by
  rw [← List.append_assoc, classDeclarations_append (.inr h.ends),
    classDeclarations_append_line h.whole h.same h.declared]

theorem owningClass?_remark {offset : Nat} (hoffset : offset ≤ byteLength (lines ++ line)) :
    owningClass? (classDeclarations (lines ++ line ++ (w ++ rest))) offset =
      owningClass? (classDeclarations (lines ++ line)) offset := by
  rw [classDeclarations_remark h, owningClass?_append_of_le]
  intro d hd
  obtain ⟨d, -, rfl⟩ := List.mem_map.1 hd
  show offset ≤ byteLength (lines ++ line ++ w) + d.offset
  rw [byteLength_append _ w]
  omega

theorem ownerName_behind_remark {offset : Nat} (hoffset : 0 < offset) :
    ownerName (lines ++ line ++ (w ++ rest)) (byteLength (lines ++ line ++ w) + offset) =
      (ownerName rest offset).or ((classDeclarations (lines ++ line)).getLast?.map (·.name)) := by
  rw [← List.append_assoc, ownerName_append_add h.ends hoffset,
    classDeclarations_append_line h.whole h.same h.declared]

/-! ## Bases -/

/-- The bases of a header that are not listed on the line of the remark. -/
theorem basesOf_remark (hbases : ∀ s ∈ (Marker.bases.sites (lines ++ line)).head?, '\n' ∈ s.rest) :
    basesOf (lines ++ line ++ (w ++ rest)) =
      if Marker.bases.sites (lines ++ line) = [] then basesOf rest else basesOf (lines ++ line) :=
  basesOf_of_sites (sites_remark h .bases) hbases

/-! ## The region -/

omit h in
theorem start_lt_of_mem_sites {m : Marker} {u : List Char} {s : Marker.Site} (hs : s ∈ m.sites u) :
    s.start < byteLength u :=
  Nat.lt_of_lt_of_le (Marker.start_lt_stop_of_mem_sites hs) (Marker.start_le_stop_of_mem_sites hs).2

/-- The first marker behind the remark. -/
theorem find?_sites_behind_remark (m : Marker) :
    (m.sites (lines ++ line ++ (w ++ rest))).find? (byteLength (lines ++ line) ≤ ·.start) =
      (m.sites rest).head?.map (Marker.Site.shift (byteLength (lines ++ line ++ w))) := by
  have hbytes := byteLength_append (lines ++ line) w
  rw [sites_remark h, List.find?_append, List.find?_eq_none.2, Option.none_or]
  · cases m.sites rest with
    | nil => rfl
    | cons s ss =>
      have hle : byteLength (lines ++ line) ≤ byteLength (lines ++ line ++ w) + s.start := by omega
      exact List.find?_cons_of_pos (decide_eq_true hle)
  · intro s hs
    obtain ⟨t, ht, rfl⟩ := List.mem_map.1 hs
    have hlt := start_lt_of_mem_sites ht
    refine fun hle => absurd (of_decide_eq_true hle) ?_
    show ¬ byteLength (lines ++ line) ≤ t.start
    omega

/-- The region of a header starts with the remark. What is said about its markers stands on the same
lines. -/
theorem regionOf_remark {start : Nat} {last : Marker.Site} {owner : ClassDeclaration}
    (hbegin : Marker.regionBegin.sites (lines ++ line) = [⟨start, byteLength (lines ++ line), []⟩])
    (hlast : (Marker.regionEnd.sites rest).head? = some last)
    (howner : owningClass? (classDeclarations (lines ++ line)) start = some owner) :
    (regionOf (lines ++ line ++ (w ++ rest))).1 =
        some ⟨owner.name, w ++ takeBytes last.start rest, byteLength (lines ++ line)⟩ ∧
      (regionOf (lines ++ line ++ (w ++ rest))).2.map Diagnostic.codeAndLine =
        ((Marker.regionEnd.sites (lines ++ line)).filter (·.start < start)).map (fun s =>
            (Finding.endWithoutBegin.code, some (locate (lines ++ line) s.start).line)) ++
          (Marker.regionBegin.sites rest).head?.toList.map (fun s =>
            (Finding.furtherRegion.code,
              some ((lines ++ line).count '\n' + (locate rest s.start).line))) := by
  have hfirst : start < byteLength (lines ++ line) :=
    start_lt_of_mem_sites (hbegin ▸ List.mem_cons_self : _ ∈ Marker.regionBegin.sites (lines ++ line))
  have hbytes := byteLength_append (lines ++ line) w
  have hsites : Marker.regionBegin.sites (lines ++ line ++ (w ++ rest)) =
      ⟨start, byteLength (lines ++ line), w ++ rest⟩ ::
        (Marker.regionBegin.sites rest).map (Marker.Site.shift (byteLength (lines ++ line ++ w))) := by
    rw [sites_remark h, hbegin]
    rfl
  have hends := find?_sites_behind_remark h .regionEnd
  rw [hlast, Option.map_some] at hends
  have hearly : (Marker.regionEnd.sites (lines ++ line ++ (w ++ rest))).filter (·.start < start) =
      ((Marker.regionEnd.sites (lines ++ line)).filter (·.start < start)).map
        (Marker.Site.extend (w ++ rest)) := by
    have hnone : ((Marker.regionEnd.sites rest).map
        (Marker.Site.shift (byteLength (lines ++ line ++ w)))).filter (·.start < start) = [] := by
      refine List.filter_eq_nil_iff.2 fun s hs => ?_
      obtain ⟨t, -, rfl⟩ := List.mem_map.1 hs
      refine fun hlt => absurd (of_decide_eq_true hlt) ?_
      show ¬ byteLength (lines ++ line ++ w) + t.start < start
      omega
    rw [sites_remark h, List.filter_append, hnone, List.append_nil, List.filter_map]
    rfl
  have hslice : slice (lines ++ line ++ (w ++ rest)) (byteLength (lines ++ line))
      (byteLength (lines ++ line ++ w) + last.start) = w ++ takeBytes last.start rest := by
    rw [hbytes, Nat.add_assoc, slice_over]
  have hregion := regionOf_of_owner hsites hends
    ((owningClass?_remark h (Nat.le_of_lt hfirst)).trans howner)
  refine ⟨?_, ?_⟩
  · rw [hregion, ← hslice]
    rfl
  · have hsaid : (regionOf (lines ++ line ++ (w ++ rest))).2 =
        ((Marker.regionEnd.sites (lines ++ line ++ (w ++ rest))).filter (·.start < start)).map
            (fun s => Finding.endWithoutBegin.reportAt (locate (lines ++ line ++ (w ++ rest)) s.start)) ++
          ((Marker.regionBegin.sites rest).map
              (Marker.Site.shift (byteLength (lines ++ line ++ w)))).head?.toList.map
            fun s => Finding.furtherRegion.reportAt (locate (lines ++ line ++ (w ++ rest)) s.start) :=
      congrArg Prod.snd hregion
    rw [hsaid, hearly, List.map_append, List.map_map, List.map_map, List.head?_map, Option.toList_map,
      List.map_map, List.map_map]
    congr 1
    · refine List.map_congr_left fun s hs => ?_
      have hline := line_locate_site (List.mem_of_mem_filter hs) (w ++ rest)
      exact congrArg (fun n => (_, some n)) hline
    · refine List.map_congr_left fun s _ => ?_
      exact congrArg (fun n => (_, some n)) (line_locate_remark h s.start)

/-- What a header with a region has around the remark. -/
theorem exists_owner_remark {r : Region} (hr : (regionOf (lines ++ line ++ (w ++ rest))).1 = some r) :
    ∃ start last owner,
      Marker.regionBegin.sites (lines ++ line) = [⟨start, byteLength (lines ++ line), []⟩] ∧
      (Marker.regionEnd.sites rest).head? = some last ∧
      owningClass? (classDeclarations (lines ++ line)) start = some owner ∧
      r.className = owner.name := by
  obtain ⟨start, hbegin⟩ := sites_regionBegin h
  have hfirst : start < byteLength (lines ++ line) :=
    start_lt_of_mem_sites (hbegin ▸ List.mem_cons_self : _ ∈ Marker.regionBegin.sites (lines ++ line))
  rw [fst_regionOf, sites_remark h, hbegin, List.map_singleton, List.singleton_append,
    List.head?_cons, Option.bind_some] at hr
  obtain ⟨last, hlast, hr⟩ := Option.bind_eq_some_iff.1 hr
  obtain ⟨owner, howner, rfl⟩ := Option.map_eq_some_iff.1 hr
  obtain ⟨last, hlast, -⟩ := Option.map_eq_some_iff.1 ((find?_sites_behind_remark h _).symm.trans hlast)
  exact ⟨start, last, owner, hbegin, hlast,
    (owningClass?_remark h (Nat.le_of_lt hfirst)).symm.trans howner, rfl⟩

/-! ## Enumerations -/

omit h in
theorem codeAndLine_enumerationsOf (path includePath : String) (scope : Option String)
    (cs : List Char) :
    (enumerationsOf ⟨path, includePath, String.ofList cs⟩ scope).2.map Diagnostic.codeAndLine =
      (Marker.enumeration.sites cs).filterMap fun s =>
        if (readEnumeration? s.rest).isSome then none
        else some (Finding.enumerationMissing.code, some (locate cs s.start).line) := by
  rw [snd_enumerationsOf, List.map_filterMap]
  refine List.filterMap_congr fun s _ => ?_
  split <;> rfl

/-- The enumerations of a header whose markers stand in front of the remark, and those behind it. -/
theorem fst_enumerationsOf_remark (path includePath : String) (scope : Option String)
    (henums : ∀ s ∈ Marker.enumeration.sites (lines ++ line),
      readEnumeration? (s.rest ++ (w ++ rest)) = readEnumeration? (s.rest ++ rest)) :
    (enumerationsOf ⟨path, includePath, String.ofList (lines ++ line ++ (w ++ rest))⟩ scope).1 =
      ((Marker.enumeration.sites (lines ++ line)).filterMap fun s =>
        (readEnumeration? (s.rest ++ rest)).map
          (enumerationIn path includePath scope (ownerName (lines ++ line) s.start))) ++
      (Marker.enumeration.sites rest).filterMap fun s =>
        (readEnumeration? s.rest).map (enumerationIn path includePath scope
          ((ownerName rest s.start).or ((classDeclarations (lines ++ line)).getLast?.map (·.name)))) := by
  rw [fst_enumerationsOf, sites_remark h, List.filterMap_append, List.filterMap_map,
    List.filterMap_map]
  congr 1
  · refine List.filterMap_congr fun s hs => ?_
    have hle := Marker.start_le_stop_of_mem_sites hs
    have howner : ownerName (lines ++ line ++ (w ++ rest)) s.start =
        ownerName (lines ++ line) s.start :=
      congrArg _ (owningClass?_remark h (Nat.le_trans hle.1 hle.2))
    simp only [Function.comp_apply, Marker.Site.extend, henums s hs, howner]
  · refine List.filterMap_congr fun s hs => ?_
    simp only [Function.comp_apply, Marker.Site.shift]
    rw [ownerName_behind_remark h (Marker.start_pos_of_mem_sites h.ends hs)]

/-- What is said about the markers of a header that no enumeration follows. -/
theorem snd_enumerationsOf_remark (path includePath : String) (scope : Option String)
    (henums : ∀ s ∈ Marker.enumeration.sites (lines ++ line),
      readEnumeration? (s.rest ++ (w ++ rest)) = readEnumeration? (s.rest ++ rest)) :
    (enumerationsOf ⟨path, includePath, String.ofList (lines ++ line ++ (w ++ rest))⟩ scope).2.map
        Diagnostic.codeAndLine =
      ((Marker.enumeration.sites (lines ++ line)).filterMap fun s =>
        if (readEnumeration? (s.rest ++ rest)).isSome then none
        else some (Finding.enumerationMissing.code, some (locate (lines ++ line) s.start).line)) ++
      (Marker.enumeration.sites rest).filterMap fun s =>
        if (readEnumeration? s.rest).isSome then none
        else some (Finding.enumerationMissing.code,
          some ((lines ++ line).count '\n' + (locate rest s.start).line)) := by
  rw [codeAndLine_enumerationsOf, sites_remark h, List.filterMap_append, List.filterMap_map,
    List.filterMap_map]
  congr 1
  · refine List.filterMap_congr fun s hs => ?_
    simp only [Function.comp_apply, Marker.Site.extend, henums s hs, line_locate_site hs]
  · refine List.filterMap_congr fun s hs => ?_
    simp only [Function.comp_apply, Marker.Site.shift, line_locate_remark h]

end

end Header

end ChaiBind
