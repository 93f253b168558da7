import ChaiBind.Proofs.Header.ClassLines
import ChaiBind.Proofs.Header.DiagnosticPlaces
import ChaiBind.Proofs.Header.MarkerOrder

/-!
# The region of a class

The region of a header stands between the first marker that begins one and the first marker behind
it that ends one, and belongs to the class declared last before it (`IsRegion`). A header has a
region exactly if it has these three (`regionOf_spec`).
-/

namespace ChaiBind.Header

open Text

/-! ## Class declarations in order -/

theorem pairwise_declarationsFrom (offset : Nat) (lines : List (List Char)) :
    (declarationsFrom offset lines).Pairwise (·.offset < ·.offset) := by
  induction lines generalizing offset with
  | nil => exact List.Pairwise.nil
  | cons line lines ih =>
    rw [declarationsFrom_cons, List.pairwise_append]
    refine ⟨?_, ih _, fun d hd e he => ?_⟩
    · cases declaredName? line with
      | none => exact List.Pairwise.nil
      | some name => exact List.pairwise_singleton _ _
    · obtain ⟨name, -, rfl⟩ := Option.map_eq_some_iff.1 (Option.mem_toList.1 hd)
      rw [← Nat.add_zero (offset + byteLength line + 1), declarationsFrom_add] at he
      obtain ⟨e, -, rfl⟩ := List.mem_map.1 he
      show offset < offset + byteLength line + 1 + e.offset
      omega

theorem pairwise_classDeclarations (cs : List Char) :
    (classDeclarations cs).Pairwise (·.offset < ·.offset) :=
  pairwise_declarationsFrom 0 (splitLines cs)

/-- The declaration is the last one before an offset. -/
structure IsNearest (decls : List ClassDeclaration) (offset : Nat) (d : ClassDeclaration) :
    Prop where
  mem : d ∈ decls
  before : d.offset < offset
  last : ∀ e ∈ decls, e.offset < offset → e.offset ≤ d.offset

theorem isSome_owningClass? {decls : List ClassDeclaration} {offset : Nat} :
    (owningClass? decls offset).isSome ↔ ∃ d ∈ decls, d.offset < offset := by
  simp [owningClass?, List.find?_isSome]

theorem owningClass?_eq_some_iff {cs : List Char} {offset : Nat} {d : ClassDeclaration} :
    owningClass? (classDeclarations cs) offset = some d ↔
      IsNearest (classDeclarations cs) offset d := by
  have hordered := List.pairwise_reverse.2 (pairwise_classDeclarations cs)
  rw [owningClass?, find?_eq_some_iff_of_pairwise (fun _ _ => Nat.lt_asymm) hordered]
  simp only [List.mem_reverse, decide_eq_true_eq, Nat.not_lt]
  constructor
  · rintro ⟨hmem, hbefore, hlast⟩
    exact ⟨hmem, hbefore, hlast⟩
  · intro h
    exact ⟨h.mem, h.before, h.last⟩

/-! ## The region -/

/-- A region of a text that a class owns: it stands between the first marker that begins a region
and a marker that ends one, and no such marker stands in it. -/
structure IsRegion (cs : List Char) (r : Region) (first last : Marker.Site)
    (owner : ClassDeclaration) : Prop where
  begins : Marker.regionBegin.IsFirst cs first
  ends : last ∈ Marker.regionEnd.sites cs
  bodyOffset : r.bodyOffset = first.stop
  body : ∃ before after, cs = before ++ r.body ++ after ∧ byteLength before = first.stop ∧
    byteLength (before ++ r.body) = last.start
  unended : Marker.regionEnd.sites r.body = []
  owned : IsNearest (classDeclarations cs) first.start owner
  className : r.className = owner.name

section

variable {cs : List Char} {r : Region} {first last : Marker.Site} {owner : ClassDeclaration}

/-- In a part of a text in front of a marker stands no such marker if the marker is the first one
from the start of the part on. -/
theorem sites_part_eq_nil_iff {m : Marker} {s : Marker.Site} (hs : s ∈ m.sites cs)
    {before body after : List Char} (hcs : cs = before ++ body ++ after)
    (hbody : byteLength (before ++ body) = s.start) :
    m.sites body = [] ↔ ∀ t ∈ m.sites cs, byteLength before ≤ t.start → s.start ≤ t.start := by
  have hafter : after.head?.any isWord = false := by
    obtain ⟨pre, tail, hslash, hstart⟩ := Marker.exists_slash_of_mem_sites hs
    have hsplit := hcs.symm.trans hslash
    obtain ⟨a, rfl⟩ := isPrefix_of_byteLength_le (by omega) hsplit
    have ha : a = [] := by
      by_contra ha
      have hpos := byteLength_pos ha
      rw [byteLength_append _ a] at hstart
      omega
    rw [ha, List.append_nil] at hsplit
    rw [List.append_cancel_left hsplit]
    rfl
  constructor
  · intro hnil t ht hle
    by_contra hlt
    have hstop := Marker.stop_le_start_of_mem_sites ht hs (Nat.not_le.1 hlt)
    subst hcs
    obtain ⟨s', hs', -⟩ := (Marker.exists_site_part_iff hafter).2
      ⟨t, ht, (Nat.add_sub_of_le hle).symm, by omega⟩
    rw [hnil] at hs'
    cases hs'
  · intro hfirst
    refine List.eq_nil_iff_forall_not_mem.2 fun s' hs' => ?_
    obtain ⟨t, ht, hstart, hstop⟩ :=
      (Marker.exists_site_part_iff (u := before) hafter).1 ⟨s', hs', rfl⟩
    rw [← hcs] at ht
    have hle := hfirst t ht (by omega)
    have hlt := Marker.start_lt_stop_of_mem_sites ht
    omega

theorem regionOf_eq_some_iff : (regionOf cs).1 = some r ↔
    ∃ first last owner, IsRegion cs r first last owner := by
  rw [fst_regionOf]
  constructor
  · intro h
    obtain ⟨first, hfirst, h⟩ := Option.bind_eq_some_iff.1 h
    obtain ⟨last, hlast, h⟩ := Option.bind_eq_some_iff.1 h
    obtain ⟨owner, howner, rfl⟩ := Option.map_eq_some_iff.1 h
    have hbegins := Marker.isFirst_iff_head?.2 hfirst
    obtain ⟨hends, hle, hleast⟩ := Marker.find?_sites_eq_some_iff.1 hlast
    obtain ⟨before, after, hcs, hbefore, hbody⟩ :=
      exists_slice_split hbegins.1 hends (of_decide_eq_true hle)
    refine ⟨first, last, owner,
      { begins := hbegins
        ends := hends
        bodyOffset := rfl
        body := ⟨before, '/' :: after, hcs, hbefore, hbody⟩
        unended := (sites_part_eq_nil_iff hends hcs hbody).2 fun t ht hbehind => ?_
        owned := owningClass?_eq_some_iff.1 howner
        className := rfl }⟩
    exact hleast t ht (decide_eq_true (hbefore ▸ hbehind))
  · rintro ⟨first, last, owner, h⟩
    obtain ⟨before, after, hcs, hbefore, hbody⟩ := h.body
    have hleast := (sites_part_eq_nil_iff h.ends hcs hbody).1 h.unended
    have hle : first.stop ≤ last.start := by
      rw [byteLength_append] at hbody
      omega
    have hlast : (Marker.regionEnd.sites cs).find? (first.stop ≤ ·.start) = some last := by
      refine Marker.find?_sites_eq_some_iff.2 ⟨h.ends, decide_eq_true hle, fun t ht hbehind => ?_⟩
      exact hleast t ht (hbefore ▸ of_decide_eq_true hbehind)
    have hslice : slice cs first.stop last.start = r.body := by
      rw [hcs, ← hbefore, ← hbody, List.append_assoc, slice_between]
    rw [Marker.isFirst_iff_head?.1 h.begins, Option.bind_some, hlast, Option.bind_some,
      owningClass?_eq_some_iff.2 h.owned, Option.map_some, hslice, ← h.className, ← h.bodyOffset]

theorem isSome_regionOf_iff : (regionOf cs).1.isSome ↔ ∃ first last owner,
    Marker.regionBegin.IsFirst cs first ∧ last ∈ Marker.regionEnd.sites cs ∧
      first.stop ≤ last.start ∧ owner ∈ classDeclarations cs ∧ owner.offset < first.start := by
  constructor
  · intro h
    obtain ⟨r, hr⟩ := Option.isSome_iff_exists.1 h
    obtain ⟨first, last, owner, hregion⟩ := regionOf_eq_some_iff.1 hr
    obtain ⟨before, after, -, hbefore, hbody⟩ := hregion.body
    rw [byteLength_append] at hbody
    exact ⟨first, last, owner, hregion.begins, hregion.ends, by omega, hregion.owned.mem,
      hregion.owned.before⟩
  · rintro ⟨first, last, owner, hfirst, hlast, hle, howner, hlt⟩
    have hends : ((Marker.regionEnd.sites cs).find? (first.stop ≤ ·.start)).isSome :=
      List.find?_isSome.2 ⟨last, hlast, decide_eq_true hle⟩
    obtain ⟨last, hlast⟩ := Option.isSome_iff_exists.1 hends
    rw [fst_regionOf, Marker.isFirst_iff_head?.1 hfirst, Option.bind_some, hlast, Option.bind_some,
      Option.isSome_map]
    exact isSome_owningClass?.2 ⟨owner, howner, hlt⟩

end

/-- The region of a header is the one that a class owns, and a header has one if its first marker
that begins a region has a marker behind it that ends one and a class declared before it. -/
theorem regionOf_spec (cs : List Char) :
    (∀ r, (regionOf cs).1 = some r ↔ ∃ first last owner, IsRegion cs r first last owner) ∧
      ((regionOf cs).1.isSome ↔ ∃ first last owner, Marker.regionBegin.IsFirst cs first ∧
        last ∈ Marker.regionEnd.sites cs ∧ first.stop ≤ last.start ∧
        owner ∈ classDeclarations cs ∧ owner.offset < first.start) :=
  ⟨fun _ => regionOf_eq_some_iff, isSome_regionOf_iff⟩

/-- A header with markers out of order, of which two stand next to each other. -/
theorem sprite_region :
    let cs := ("//= END SCRIPTABLE\nclass Scene;\nclass Sprite \x7b\n//= BEGIN SCRIPTABLE\n" ++
      "void show();\n//= END SCRIPTABLE//= END SCRIPTABLE\nclass Late //= BEGIN SCRIPTABLE").toList
    let r : Region := ⟨"Sprite", "\nvoid show();\n".toList, 67⟩
    (regionOf cs).1 = some r ∧ ∃ first last owner, IsRegion cs r first last owner := by
  intro cs r
  have hregion : (regionOf cs).1 = some r := by decide +kernel
  exact ⟨hregion, ((regionOf_spec cs).1 r).1 hregion⟩

end ChaiBind.Header
