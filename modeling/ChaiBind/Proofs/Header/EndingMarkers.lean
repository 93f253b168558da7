import ChaiBind.Proofs.Header.DiagnosticPlaces
import ChaiBind.Proofs.Header.EndingNames
import ChaiBind.Proofs.Text.PlainText

/-!
# Markers of a header with other line endings

The markers of a header move with the places they stand at when its newlines get carriage
returns (`sites_withReturns`): no marker starts at a line ending or goes on over one. So the
header has the same bases (`basesOf_withReturns`), and its region is the same one, with the
line endings of its body changed as well (`fst_regionOf_withReturns`); what is wrong with the
markers is reported at the same lines and columns (`snd_regionOf_withReturns`).
-/

namespace ChaiBind

open Text

namespace Diagnostic

/-- The diagnostic with its line and column, but without its offset in bytes. -/
def apartFromOffset (d : Diagnostic) : Diagnostic :=
  { d with location := d.location.map fun l => { l with offset := 0 } }

end Diagnostic

theorem Finding.apartFromOffset_reportAt {l l' : Location} (h : l'.place = l.place) (f : Finding) :
    (f.reportAt l').apartFromOffset = (f.reportAt l).apartFromOffset := by
  obtain ⟨hline, hcolumn⟩ := Prod.mk.inj h
  simp only [Diagnostic.apartFromOffset, Finding.reportAt, Option.map_some, hline, hcolumn]

namespace Marker

/-! ## Markers -/

theorem afterWords_withReturns {ws : List (List Char)} (hws : ∀ w ∈ ws, ∀ c ∈ w, isWord c)
    (cs : List Char) : afterWords ws (withReturns cs) = (afterWords ws cs).map withReturns := by
  induction ws generalizing cs with
  | nil => rfl
  | cons w ws ih =>
    obtain ⟨hw, hws⟩ := List.forall_mem_cons.1 hws
    have hbreak : '\n' ∉ w ∧ '\r' ∉ w := ⟨notMem_of_isWord hw rfl, notMem_of_isWord hw rfl⟩
    rw [afterWords, afterWords, dropSpaces_withReturns, isPrefixOf?_withReturns hbreak]
    cases w.isPrefixOf? (dropSpaces cs) with
    | none => rfl
    | some rest => exact ih hws rest

theorem after?_withReturns (m : Marker) (cs : List Char) :
    m.after? (withReturns cs) = (m.after? cs).map withReturns := by
  have hwords : ∀ w ∈ m.words, ∀ c ∈ w, isWord c := fun w hw => (m.isWord_of_mem_words w hw).2
  have hword : isWord '\r' = isWord '\n' := rfl
  rw [after?_eq, after?_eq, isPrefixOf?_withReturns (by decide)]
  cases "//=".toList.isPrefixOf? cs with
  | none => rfl
  | some rest =>
    simp only [Option.map_some, Option.bind_some, afterWords_withReturns hwords, Option.filter_map,
      Function.comp_def, any_head?_withReturns hword]

/-- The marker in the text with other line endings. -/
def Site.move (cs : List Char) (s : Site) : Site :=
  ⟨moved cs s.start, moved cs s.stop, withReturns s.rest⟩

theorem siteAt?_withReturns (m : Marker) (before before' : Option Char) (cs : List Char) :
    m.siteAt? ⟨before', 0, withReturns cs⟩ = (m.siteAt? ⟨before, 0, cs⟩).map (Site.move cs) := by
  rw [siteAt?, siteAt?, after?_withReturns, Option.map_map, Option.map_map]
  refine Option.map_congr fun rest hrest => ?_
  obtain ⟨text, rfl, -⟩ := exists_of_after? hrest
  have hstop : ∀ u v, 0 + (byteLength (u ++ v) - byteLength v) = byteLength u := by
    intro u v
    rw [byteLength_append]
    omega
  simp only [Function.comp_apply, Site.move, withReturns_append, hstop, moved_zero,
    moved_byteLength]

theorem sites_cons (m : Marker) (c : Char) (cs : List Char) :
    m.sites (c :: cs) = (m.siteAt? ⟨none, 0, c :: cs⟩).toList ++
      (m.sites cs).map (Site.shift c.utf8Size) := by
  have hshift := filterMap_siteAt?_cursorsFrom m (some c) none c.utf8Size 0 cs
  rw [sites, cursors, cursorsFrom, List.filterMap_cons, Nat.zero_add, ← Nat.add_zero c.utf8Size,
    hshift, Nat.add_zero, sites, cursors]
  cases m.siteAt? ⟨none, 0, c :: cs⟩ <;> rfl

theorem Site.shift_comp_shift (m n : Nat) : Site.shift m ∘ Site.shift n = Site.shift (m + n) := by
  funext s
  simp [Site.shift, Nat.add_assoc]

theorem sites_withReturns (m : Marker) (cs : List Char) :
    m.sites (withReturns cs) = (m.sites cs).map (Site.move cs) := by
  induction cs with
  | nil => cases m <;> rfl
  | cons c cs ih =>
    have hmoved : ∀ offset, moved (c :: cs) (c.utf8Size + offset) =
        byteLength (withReturns [c]) + moved cs offset := moved_append [c] cs
    have hshift : ∀ n, n = byteLength (withReturns [c]) →
        (m.sites (withReturns cs)).map (Site.shift n) =
          ((m.sites cs).map (Site.shift c.utf8Size)).map (Site.move (c :: cs)) := by
      rintro n rfl
      rw [ih, List.map_map, List.map_map]
      refine List.map_congr_left fun s _ => ?_
      simp only [Function.comp_apply, Site.shift, Site.move, hmoved]
    by_cases hc : c = '\n'
    · subst hc
      have hreturn : m.siteAt? ⟨none, 0, '\r' :: '\n' :: withReturns cs⟩ = none := rfl
      have hnewline : ∀ ds, m.siteAt? ⟨none, 0, '\n' :: ds⟩ = none := fun _ => rfl
      rw [withReturns_newline, sites_cons, sites_cons, sites_cons, hreturn, hnewline, hnewline,
        Option.toList_none, List.nil_append, List.nil_append, List.nil_append, ← hshift 2 rfl,
        List.map_map, Site.shift_comp_shift]
      rfl
    · have hsite := siteAt?_withReturns m none none (c :: cs)
      have hsize : c.utf8Size = byteLength (withReturns [c]) := by
        rw [withReturns_cons hc]
        rfl
      rw [withReturns_cons hc] at hsite ⊢
      rw [sites_cons, sites_cons, hsite, List.map_append, hshift _ hsize]
      cases m.siteAt? ⟨none, 0, c :: cs⟩ <;> rfl

/-- A marker that is moved is at the same line and column. -/
theorem place_locate_withReturns {m : Marker} {cs : List Char} {s : Site} (hs : s ∈ m.sites cs) :
    (locate (withReturns cs) (s.move cs).start).place = (locate cs s.start).place := by
  obtain ⟨pre, text, rfl, -, hstart, -⟩ := exists_of_mem_sites hs
  rw [Site.move, hstart]
  exact Text.place_locate_withReturns pre (text ++ s.rest)

end Marker

namespace Header

/-! ## Bases -/

theorem words_append_blank {d : Char} (hd : isBlank d) (cs : List Char) :
    words (cs ++ [d]) = words cs := by
  have hpieces : pieces isBlank (cs ++ [d]) = pieces isBlank cs ++ [[]] := by
    induction cs with
    | nil => simp [pieces, hd]
    | cons c cs ih =>
      obtain ⟨p, ps, hps⟩ := List.exists_cons_of_ne_nil (pieces_ne_nil isBlank cs)
      rw [List.cons_append, pieces, pieces, ih]
      split
      · rfl
      · rw [hps]
        rfl
  rw [words, hpieces, List.filter_append, words]
  simp

/-- What stands on a line up to its newline gets the carriage return of the newline. -/
theorem takeWhile_ne_newline_withReturns (cs : List Char) :
    ∃ ending, (ending = [] ∨ ending = ['\r']) ∧
      (withReturns cs).takeWhile (· ≠ '\n') = cs.takeWhile (· ≠ '\n') ++ ending := by
  induction cs with
  | nil => exact ⟨[], .inl rfl, rfl⟩
  | cons c cs ih =>
    by_cases hc : c = '\n'
    · subst hc
      exact ⟨['\r'], .inr rfl, rfl⟩
    · obtain ⟨ending, hending, htake⟩ := ih
      refine ⟨ending, hending, ?_⟩
      rw [withReturns_cons hc, List.takeWhile_cons_of_pos (by simpa using hc),
        List.takeWhile_cons_of_pos (by simpa using hc), htake, List.cons_append]

theorem basesOf_withReturns (cs : List Char) : basesOf (withReturns cs) = basesOf cs := by
  rw [basesOf_eq, basesOf_eq, Marker.sites_withReturns, List.head?_map, Option.map_map]
  congr 2
  funext s
  obtain ⟨ending, rfl | rfl, htake⟩ := takeWhile_ne_newline_withReturns s.rest
  · simp only [Function.comp_apply, Marker.Site.move, htake, List.append_nil]
  · simp only [Function.comp_apply, Marker.Site.move, htake, words_append_blank (d := '\r') rfl]

/-! ## The region -/

/-- The region in the text with other line endings. -/
def Region.move (cs : List Char) (r : Region) : Region :=
  ⟨r.className, withReturns r.body, moved cs r.bodyOffset⟩

theorem slice_between_sites {m m' : Marker} {cs : List Char} {s e : Marker.Site}
    (hs : s ∈ m.sites cs) (he : e ∈ m'.sites cs) (hle : s.stop ≤ e.start) :
    slice (withReturns cs) (moved cs s.stop) (moved cs e.start) =
      withReturns (slice cs s.stop e.start) := by
  obtain ⟨pre, text, hcs, -, -, hstop⟩ := Marker.exists_of_mem_sites hs
  obtain ⟨pre', text', hcs', -, hstart, -⟩ := Marker.exists_of_mem_sites he
  rw [← byteLength_append] at hstop
  rw [← List.append_assoc] at hcs
  rw [hstop, hstart] at hle ⊢
  have hsplit : (pre ++ text) ++ s.rest = pre' ++ (text' ++ e.rest) := hcs.symm.trans hcs'
  have hslice := slice_withReturns hle hsplit
  rwa [← hcs] at hslice

theorem find?_sites_withReturns (cs : List Char) (sites : List Marker.Site) (stop : Nat) :
    (sites.map (Marker.Site.move cs)).find? (moved cs stop ≤ ·.start) =
      (sites.find? (stop ≤ ·.start)).map (Marker.Site.move cs) := by
  rw [List.find?_map]
  simp only [Function.comp_def, Marker.Site.move, (strictMono_moved cs).le_iff_le]

theorem fst_regionOf_withReturns (cs : List Char) :
    (regionOf (withReturns cs)).1 = (regionOf cs).1.map (Region.move cs) := by
  rw [fst_regionOf, fst_regionOf, Marker.sites_withReturns, Marker.sites_withReturns,
    classDeclarations_withReturns, List.head?_map]
  cases hfirst : (Marker.regionBegin.sites cs).head? with
  | none => rfl
  | some first =>
    have howner := owningClass?_withReturns cs (classDeclarations cs) first.start
    have hfind := find?_sites_withReturns cs (Marker.regionEnd.sites cs) first.stop
    simp only [Option.map_some, Option.bind_some, Marker.Site.move] at hfind ⊢
    rw [hfind, howner]
    cases hlast : (Marker.regionEnd.sites cs).find? (first.stop ≤ ·.start) with
    | none => rfl
    | some last =>
      have hle : first.stop ≤ last.start := by simpa using List.find?_some hlast
      have hslice := slice_between_sites (List.mem_of_head? hfirst)
        (List.mem_of_find?_eq_some hlast) hle
      simp only [Option.map_some, Option.bind_some, Option.map_map, Marker.Site.move, hslice]
      rfl

/-- The reports of markers in the text with other line endings. -/
theorem map_report_withReturns {m : Marker} {cs : List Char} {sites : List Marker.Site}
    (hsites : sites ⊆ m.sites cs) (f : Finding) :
    ((sites.map (Marker.Site.move cs)).map fun s =>
        f.reportAt (locate (withReturns cs) s.start)).map Diagnostic.apartFromOffset =
      (sites.map fun s => f.reportAt (locate cs s.start)).map Diagnostic.apartFromOffset := by
  rw [List.map_map, List.map_map, List.map_map]
  exact List.map_congr_left fun s hs =>
    f.apartFromOffset_reportAt (Marker.place_locate_withReturns (hsites hs))

theorem snd_regionOf_withReturns (cs : List Char) :
    (regionOf (withReturns cs)).2.map Diagnostic.apartFromOffset =
      (regionOf cs).2.map Diagnostic.apartFromOffset := by
  rw [regionOf, regionOf, Marker.sites_withReturns, Marker.sites_withReturns,
    classDeclarations_withReturns]
  cases hbegin : Marker.regionBegin.sites cs with
  | nil => exact map_report_withReturns (List.Subset.refl _) _
  | cons first further =>
    have hfirst : [first] ⊆ Marker.regionBegin.sites cs := by
      rw [hbegin]
      simp
    have hfurther : further.head?.toList ⊆ Marker.regionBegin.sites cs := by
      rw [hbegin]
      cases further <;> simp
    have hfilter : ((Marker.regionEnd.sites cs).map (Marker.Site.move cs)).filter
        (·.start < (first.move cs).start) =
          ((Marker.regionEnd.sites cs).filter (·.start < first.start)).map
            (Marker.Site.move cs) := by
      rw [List.filter_map]
      simp only [Function.comp_def, Marker.Site.move, (strictMono_moved cs).lt_iff_lt]
    have hhead : (further.map (Marker.Site.move cs)).head?.toList =
        further.head?.toList.map (Marker.Site.move cs) := by
      cases further <;> rfl
    have hfind : ((Marker.regionEnd.sites cs).map (Marker.Site.move cs)).find?
        ((first.move cs).stop ≤ ·.start) = _ := find?_sites_withReturns cs _ first.stop
    have howner : owningClass? ((classDeclarations cs).map (ClassDeclaration.move cs))
        (first.move cs).start = _ := owningClass?_withReturns cs _ first.start
    have hends : (Marker.regionEnd.sites cs).filter (·.start < first.start) ⊆
        Marker.regionEnd.sites cs := List.filter_sublist.subset
    have hearly := map_report_withReturns hends .endWithoutBegin
    simp only [List.map_cons, hfilter, hhead, hfind, howner]
    cases (Marker.regionEnd.sites cs).find? (first.stop ≤ ·.start) with
    | none =>
      have hopen := map_report_withReturns hfirst .regionNotClosed
      simp only [Option.map_none, List.map_append, hearly]
      exact congrArg _ hopen
    | some last =>
      have hextra := map_report_withReturns hfurther .furtherRegion
      cases owningClass? (classDeclarations cs) first.start with
      | none =>
        have horphan := map_report_withReturns hfirst .regionOutsideClass
        simp only [Option.map_some, Option.map_none, List.map_append, hearly, hextra]
        exact congrArg _ horphan
      | some owner => simp only [Option.map_some, List.map_append, hearly, hextra]

end Header

end ChaiBind
