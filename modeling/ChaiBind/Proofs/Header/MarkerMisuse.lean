import ChaiBind.Proofs.Header.ClassRegions

/-!
# Markers out of place

What is said about the markers of regions is nothing exactly if there are none, or if the only one
that begins a region stands behind a class declaration and in front of all that end one
(`snd_regionOf_eq_nil_iff`). So a marker that ends a region once more is passed over, and any other
misuse is reported (`misuse_reported_iff`).
-/

namespace ChaiBind

open Text

namespace Marker

/-- No marker both begins and ends a region. -/
theorem start_ne_of_mem_sites {cs : List Char} {s t : Site} (hs : s ∈ regionBegin.sites cs)
    (ht : t ∈ regionEnd.sites cs) : s.start ≠ t.start := by
  intro hstart
  obtain ⟨pre, text, hcs, hbegin, hpre, -⟩ := mem_sites_iff.1 hs
  obtain ⟨pre', text', hcs', hend, hpre', -⟩ := mem_sites_iff.1 ht
  have hsplit := hcs.symm.trans hcs'
  obtain ⟨more, rfl⟩ := isPrefix_of_byteLength_le (by omega) hsplit
  have hmore : more = [] := by
    by_contra hne
    have hpos := byteLength_pos hne
    rw [byteLength_append] at hpre'
    omega
  subst hmore
  rw [List.append_nil] at hsplit
  rw [← List.append_cancel_left hsplit] at hend
  cases eq_regionBegin_of_after? hbegin hend

end Marker

namespace Header

/-- No marker of a header begins or ends a region. -/
def IsUnmarked (cs : List Char) : Prop :=
  Marker.regionBegin.sites cs = [] ∧ Marker.regionEnd.sites cs = []

/-- The only marker that begins a region stands behind a class declaration and in front of all
markers that end one. -/
structure BeginsOnce (cs : List Char) (first : Marker.Site) : Prop where
  only : Marker.regionBegin.sites cs = [first]
  behind : ∀ last ∈ Marker.regionEnd.sites cs, first.start < last.start
  owned : ∃ d ∈ classDeclarations cs, d.offset < first.start

/-- A header has no markers of regions, or one that begins a region behind a class declaration and
one that ends it. -/
def MarkersInPlace (cs : List Char) : Prop :=
  IsUnmarked cs ∨ ∃ first last, BeginsOnce cs first ∧ Marker.regionEnd.sites cs = [last]

/-- A header has one region in place and more markers that end one behind it. -/
def EndsAgain (cs : List Char) : Prop :=
  ∃ first last again more, BeginsOnce cs first ∧
    Marker.regionEnd.sites cs = last :: again :: more

theorem not_markersInPlace_of_endsAgain {cs : List Char} (h : EndsAgain cs) :
    ¬ MarkersInPlace cs := by
  obtain ⟨first, last, again, more, -, hends⟩ := h
  rintro (⟨-, hnone⟩ | ⟨_, _, -, hone⟩)
  · rw [hends] at hnone
    cases hnone
  · rw [hends] at hone
    cases hone

variable {cs : List Char}

/-- What a header that begins a region says about its markers: nothing, if none that ends one stands
in front of it, one stands behind it, no further one begins, and a class is declared before. -/
theorem snd_regionOf_eq_nil_iff_of_begins {first : Marker.Site} {further : List Marker.Site}
    (hbegins : Marker.regionBegin.sites cs = first :: further) : (regionOf cs).2 = [] ↔
      (Marker.regionEnd.sites cs).filter (·.start < first.start) = [] ∧
        ((Marker.regionEnd.sites cs).find? (first.stop ≤ ·.start)).isSome ∧ further = [] ∧
        (owningClass? (classDeclarations cs) first.start).isSome := by
  rw [regionOf, hbegins]
  dsimp only
  split
  · simp [*]
  · split
    · simp [*]
    · cases further <;> simp [*]

/-- Nothing is said about the markers of a header with one that begins a region if it is the only
one, a class is declared in front of it, and all that end a region stand behind it, of which there
is one at least. -/
theorem snd_regionOf_eq_nil_iff_beginsOnce {first : Marker.Site} {further : List Marker.Site}
    (hbegins : Marker.regionBegin.sites cs = first :: further) :
    (regionOf cs).2 = [] ↔ BeginsOnce cs first ∧ Marker.regionEnd.sites cs ≠ [] := by
  have hfirst : first ∈ Marker.regionBegin.sites cs := hbegins ▸ List.mem_cons_self
  have hbehind : (Marker.regionEnd.sites cs).filter (·.start < first.start) = [] ↔
      ∀ last ∈ Marker.regionEnd.sites cs, first.start < last.start := by
    simp only [List.filter_eq_nil_iff, decide_eq_true_eq]
    refine forall₂_congr fun last hlast => ?_
    have hne := Marker.start_ne_of_mem_sites hfirst hlast
    omega
  rw [snd_regionOf_eq_nil_iff_of_begins hbegins, hbehind, isSome_owningClass?]
  constructor
  · rintro ⟨hends, hclosed, rfl, howned⟩
    refine ⟨⟨hbegins, hends, howned⟩, fun hnil => ?_⟩
    rw [hnil] at hclosed
    cases hclosed
  · rintro ⟨h, hne⟩
    obtain ⟨last, hlast⟩ := List.exists_mem_of_ne_nil _ hne
    have hstop := Marker.stop_le_start_of_mem_sites hfirst hlast (h.behind last hlast)
    refine ⟨h.behind, List.find?_isSome.2 ⟨last, hlast, decide_eq_true hstop⟩, ?_, h.owned⟩
    exact (List.cons_eq_cons.1 (hbegins.symm.trans h.only)).2

theorem snd_regionOf_eq_nil_iff : (regionOf cs).2 = [] ↔
    IsUnmarked cs ∨ ∃ first, BeginsOnce cs first ∧ Marker.regionEnd.sites cs ≠ [] := by
  cases hbegins : Marker.regionBegin.sites cs with
  | nil =>
    have hnone : ¬ ∃ first, BeginsOnce cs first ∧ Marker.regionEnd.sites cs ≠ [] := by
      rintro ⟨first, honce, -⟩
      cases hbegins.symm.trans honce.only
    simp only [regionOf, hbegins, List.map_eq_nil_iff, IsUnmarked, true_and, hnone, or_false]
  | cons first further =>
    rw [snd_regionOf_eq_nil_iff_beginsOnce hbegins]
    constructor
    · intro h
      exact .inr ⟨first, h⟩
    · rintro (⟨hnone, -⟩ | ⟨first', honce, hends⟩)
      · cases hbegins.symm.trans hnone
      · obtain ⟨rfl, -⟩ := List.cons_eq_cons.1 (hbegins.symm.trans honce.only)
        exact ⟨honce, hends⟩

/-- What is said about the markers of regions is nothing exactly if they are in place or a region is
ended again. So nothing is said exactly about what is in place, unless a region is ended again. -/
theorem misuse_reported_iff (cs : List Char) :
    ((regionOf cs).2 = [] ↔ MarkersInPlace cs ∨ EndsAgain cs) ∧
      (((regionOf cs).2 = [] ↔ MarkersInPlace cs) ↔ ¬ EndsAgain cs) := by
  have hsilent : (regionOf cs).2 = [] ↔ MarkersInPlace cs ∨ EndsAgain cs := by
    rw [snd_regionOf_eq_nil_iff, MarkersInPlace, or_assoc]
    refine or_congr_right ?_
    constructor
    · rintro ⟨first, honce, hne⟩
      match hends : Marker.regionEnd.sites cs with
      | [] => exact absurd hends hne
      | [last] => exact .inl ⟨first, last, honce, rfl⟩
      | last :: again :: more => exact .inr ⟨first, last, again, more, honce, hends⟩
    · rintro (⟨first, last, honce, hends⟩ | ⟨first, last, again, more, honce, hends⟩)
      · exact ⟨first, honce, hends ▸ List.cons_ne_nil _ _⟩
      · exact ⟨first, honce, hends ▸ List.cons_ne_nil _ _⟩
  refine ⟨hsilent, ?_⟩
  rw [hsilent]
  constructor
  · intro h hagain
    exact not_markersInPlace_of_endsAgain hagain (h.1 (.inr hagain))
  · intro hagain
    exact or_iff_left hagain

/-- A region that is ended twice, of which nothing is said. -/
theorem foo_endsAgain :
    let cs := ("class Foo \x7b\n//= BEGIN SCRIPTABLE\nFoo();\n//= END SCRIPTABLE\n" ++
      "//= END SCRIPTABLE\n\x7d;\n").toList
    (regionOf cs).2 = [] ∧ EndsAgain cs ∧ ¬ MarkersInPlace cs := by
  intro cs
  have hagain : EndsAgain cs := by
    obtain ⟨first, last, again, hbegins, hends, hlt, hlt', howned⟩ : ∃ first last again,
        Marker.regionBegin.sites cs = [first] ∧ Marker.regionEnd.sites cs = [last, again] ∧
        first.start < last.start ∧ first.start < again.start ∧
        ∃ d ∈ classDeclarations cs, d.offset < first.start :=
      ⟨_, _, _, rfl, rfl, by decide, by decide, by decide⟩
    refine ⟨first, last, again, [], ⟨hbegins, ?_, howned⟩, hends⟩
    rw [hends]
    simp [hlt, hlt']
  exact ⟨by decide +kernel, hagain, not_markersInPlace_of_endsAgain hagain⟩

end Header

end ChaiBind
