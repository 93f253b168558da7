import ChaiBind.Proofs.Header.MarkerOrder
import ChaiBind.Proofs.Header.NamespaceGrammar
import ChaiBind.Proofs.Header.SilentLines

/-!
# Behind the marker that begins a region

What stands behind the marker that begins a region, up to the end of its line, and has no marker
itself (`IsRemark`), is no part of any marker in front of it (`sites_remark`) and of no opening of a
namespace (`openingsBefore_remark`). It can stand in every header whose first such marker ends its line
(`exists_isRemark`).
-/

namespace ChaiBind

open Text

namespace Marker

/-- A text that ends with a marker that begins a region. -/
def EndsWithBegin (u : List Char) : Prop :=
  ∃ before marker, u = before ++ marker ∧ regionBegin.after? marker = some []

/-- An end of a text in two parts goes beyond the second part or falls short of it. -/
theorem suffix_append_cases {α : Type} {x y z : List α} (h : x <:+ y ++ z) :
    (∃ a, x = a ++ z) ∨ ∃ a, a ≠ [] ∧ z = a ++ x := by
  obtain ⟨pre, hpre⟩ := h
  rcases List.append_eq_append_iff.1 hpre with ⟨a, -, hx⟩ | ⟨a, -, hz⟩
  · exact .inl ⟨a, hx⟩
  · by_cases ha : a = []
    · exact .inl ⟨[], by rw [hz, ha, List.nil_append, List.nil_append]⟩
    · exact .inr ⟨a, ha, hz⟩

/-- A marker that starts in a text which ends with a marker that begins a region does not go on
behind it, unless a word does. -/
theorem EndsWithBegin.isPrefix {u y z text r : List Char} {m : Marker} (h : EndsWithBegin u)
    (hz : z.head?.any isWord = false) (hy : y <:+ u) (hne : y ≠ []) (htext : IsText text)
    (hsplit : y ++ z = text ++ r) (hr : m.after? (y ++ z) = some r) : text <+: y := by
  rcases List.append_eq_append_iff.1 hsplit with ⟨b, hover, hb⟩ | ⟨a, ha, -⟩
  · obtain ⟨before, marker, rfl, hbegin⟩ := h
    obtain ⟨_, hmarker, hshape⟩ := exists_of_after? hbegin
    rw [List.append_nil] at hmarker
    subst hmarker
    rcases suffix_append_cases hy with ⟨a, rfl⟩ | ⟨a, ha, rfl⟩
    · by_cases ha : a = []
      · -- both markers start at the same place
        subst ha
        have hlonger := (after?_append_iff hz).2 hbegin
        obtain rfl := eq_regionBegin_of_after? hlonger hr
        have hrest := Option.some.inj (hlonger.symm.trans hr)
        rw [List.nil_append, hb, List.append_left_eq_self] at hrest
        exact ⟨[], by rw [List.append_nil, hover, hrest, List.append_nil]⟩
      · -- the sign of the last marker would stand in the text of the other one
        obtain ⟨inner, rfl, -⟩ := hshape
        have hassoc : a ++ (sign ++ inner) ++ b = a ++ (sign ++ inner ++ b) := List.append_assoc ..
        have hsign : sign ++ inner ++ b ++ [] = sign ++ (inner ++ b) := by
          rw [List.append_nil, List.append_assoc]
        cases htext.eq_nil_of_sign ha (hover.trans hassoc) hsign
    · obtain ⟨inner, rfl, -⟩ := htext
      have hnil := hshape.eq_nil_of_sign ha rfl (hsplit.trans (List.append_assoc ..))
      exact absurd hnil hne
  · exact ⟨a, ha.symm⟩

/-- What stands behind a marker that begins a region is no part of a marker that starts in front of
it or with it, unless a word goes on. -/
theorem EndsWithBegin.after?_append {u y z : List Char} (h : EndsWithBegin u)
    (hz : z.head?.any isWord = false) (hy : y <:+ u) (hne : y ≠ []) (m : Marker) :
    m.after? (y ++ z) = (m.after? y).map (· ++ z) := by
  refine Option.ext fun r => ?_
  rw [Option.map_eq_some_iff]
  constructor
  · intro hr
    obtain ⟨text, hsplit, htext⟩ := exists_of_after? hr
    obtain ⟨rest, hrest⟩ := h.isPrefix hz hy hne htext hsplit hr
    rw [← hrest, List.append_assoc] at hsplit
    obtain rfl := List.append_cancel_left hsplit
    exact ⟨rest, (after?_append_iff hz).1 hr, rfl⟩
  · rintro ⟨rest, hrest, rfl⟩
    exact (after?_append_iff hz).2 hrest

/-- The word `namespace` does not start in a marker that begins a region. -/
theorem notMem_of_after?_regionBegin {marker : List Char} (h : regionBegin.after? marker = some []) :
    'n' ∉ marker := by
  rw [after?_eq] at h
  obtain ⟨rest, hsign, h⟩ := Option.bind_eq_some_iff.1 h
  obtain ⟨h, -⟩ := Option.filter_eq_some_iff.1 h
  obtain ⟨inner, rfl, hinner⟩ := exists_chars_of_afterWords h
  rw [← List.isPrefixOf?_eq_some_iff_append_eq.1 hsign, List.append_nil, List.mem_append, not_or]
  refine ⟨by decide, fun hmem => ?_⟩
  rcases hinner _ hmem with hspace | ⟨w, hw, hmem⟩
  · exact absurd hspace (by decide)
  · have hnone : ∀ w ∈ regionBegin.words, 'n' ∉ w := by decide
    exact hnone w hw hmem

/-- The marker at the end of a text. -/
theorem EndsWithBegin.exists_site {u : List Char} (h : EndsWithBegin u) :
    ∃ start, ⟨start, byteLength u, []⟩ ∈ regionBegin.sites u := by
  obtain ⟨before, marker, rfl, hbegin⟩ := h
  refine ⟨byteLength before, mem_sites_iff.2 ⟨before, marker, ?_, ?_, rfl, byteLength_append _ _⟩⟩
  · rw [List.append_nil]
  · rw [List.append_nil]
    exact hbegin

end Marker

namespace Header

/-- On `line`, which ends with the first marker of the header that begins a region, `w` stands behind
that marker, up to the end of the line, with a space in front of it. It has no marker itself, and the
line with it declares the class that it declares without it. -/
structure IsRemark (lines line w rest : List Char) : Prop where
  whole : EndsLine lines
  same : '\n' ∉ line ++ w
  ends : StartsLine rest
  begins : ∃ s, Marker.regionBegin.IsFirst (lines ++ line ++ rest) s ∧ s.rest = rest
  unmarked : ¬ Marker.sign <:+: w
  apart : ∀ d ∈ w.head?, d = ' '
  declared : declaredName? (line ++ w) = declaredName? line

/-- A remark can stand in every header whose first marker that begins a region ends its line. -/
theorem exists_isRemark {cs rest : List Char} {s : Marker.Site}
    (hs : Marker.regionBegin.IsFirst cs s) (hrest : s.rest = '\n' :: rest) :
    ∃ lines line, cs = lines ++ line ++ '\n' :: rest ∧
      ∀ w, '\n' ∉ w → ¬ Marker.sign <:+: w → (∀ d ∈ w.head?, d = ' ') →
        declaredName? (line ++ w) = declaredName? line → IsRemark lines line w ('\n' :: rest) := by
  obtain ⟨pre, text, hcs, -⟩ := Marker.mem_sites_iff.1 hs.1
  obtain ⟨lines, line, hsplit, hwhole, hline⟩ := exists_endsLine_append (pre ++ text)
  rw [hrest, ← List.append_assoc, hsplit] at hcs
  refine ⟨lines, line, hcs, fun w hw hunmarked hspace hdeclared => ?_⟩
  exact
    { whole := hwhole
      same := fun hmem => (List.mem_append.1 hmem).elim hline hw
      ends := startsLine_newline rest
      begins := ⟨s, hcs ▸ hs, hrest⟩
      unmarked := hunmarked
      apart := hspace
      declared := hdeclared }

section

variable {lines line w rest : List Char} (h : IsRemark lines line w rest)
include h

/-- Nothing may stand there. -/
theorem IsRemark.empty : IsRemark lines line [] rest where
  whole := h.whole
  same hmem := h.same (List.mem_append_left w (List.append_nil line ▸ hmem))
  ends := h.ends
  begins := h.begins
  unmarked hsign := by
    have hlength := hsign.length_le
    simp [Marker.sign] at hlength
  apart := nofun
  declared := by rw [List.append_nil]

theorem IsRemark.any_head?_isWord_rest : rest.head?.any isWord = false := by
  rcases h.ends.eq_nil_or with rfl | ⟨ds, rfl⟩
  · rfl
  · rfl

theorem IsRemark.endsWithBegin : Marker.EndsWithBegin (lines ++ line) := by
  obtain ⟨s, ⟨hs, -⟩, hrest⟩ := h.begins
  obtain ⟨pre, text, hsplit, hafter, -, -⟩ := Marker.mem_sites_iff.1 hs
  rw [hrest, ← List.append_assoc pre] at hsplit
  rw [hrest] at hafter
  refine ⟨pre, text, List.append_cancel_right hsplit, ?_⟩
  exact (Marker.after?_append_iff (r := []) h.any_head?_isWord_rest).1 hafter

theorem IsRemark.any_head?_isWord : (w ++ rest).head?.any isWord = false := by
  refine any_head?_append ?_ h.any_head?_isWord_rest
  cases w with
  | nil => rfl
  | cons d w =>
    obtain rfl := h.apart d rfl
    rfl


/-! ## What is in front of it and behind it -/

/-- The markers of a header are those in front of the remark and those behind its line. -/
theorem sites_remark (m : Marker) :
    m.sites (lines ++ line ++ (w ++ rest)) =
      (m.sites (lines ++ line)).map (Marker.Site.extend (w ++ rest)) ++
        (m.sites rest).map (Marker.Site.shift (byteLength (lines ++ line ++ w))) := by
  have hbreak : ∀ p ∈ startsFrom none 0 (lines ++ line),
      m.after? (p.rest ++ (w ++ rest)) = (m.after? p.rest).map (· ++ (w ++ rest)) := by
    intro p hp
    obtain ⟨pre, hpre, hne, -⟩ := exists_of_mem_startsFrom hp
    exact h.endsWithBegin.after?_append h.any_head?_isWord ⟨pre, hpre.symm⟩ hne m
  have hrest := Marker.endsMarker_of_startsLine h.ends
  have hshift : ∀ a b, Marker.Site.shift a ∘ Marker.Site.shift b = Marker.Site.shift (a + b) := by
    intro a b
    funext s
    simp only [Function.comp_apply, Marker.Site.shift, Nat.add_assoc]
  rw [Marker.sites_append_of_break hbreak, Marker.sites_append m (.inr hrest),
    Marker.sites_eq_nil h.unmarked, List.map_nil, List.nil_append, List.map_map, hshift,
    ← byteLength_append]

/-- The marker at the end of the line is the only one up to there that begins a region. -/
theorem sites_regionBegin :
    ∃ start, Marker.regionBegin.sites (lines ++ line) = [⟨start, byteLength (lines ++ line), []⟩] := by
  obtain ⟨start, hend⟩ := h.endsWithBegin.exists_site
  obtain ⟨s, ⟨hs, hfirst⟩, hrest⟩ := h.begins
  have hsites := sites_remark h.empty .regionBegin
  rw [List.nil_append] at hsites
  have hle : ∀ t ∈ Marker.regionBegin.sites (lines ++ line), s.start ≤ t.start := by
    intro t ht
    refine hfirst (t.extend rest) ?_
    rw [hsites]
    exact List.mem_append_left _ (List.mem_map_of_mem ht)
  have hstop : s.stop = byteLength (lines ++ line) := by
    obtain ⟨pre, text, hsplit, -, -, hstop⟩ := Marker.mem_sites_iff.1 hs
    rw [hrest, ← List.append_assoc pre] at hsplit
    rw [hstop, ← byteLength_append, List.append_cancel_right hsplit]
  -- the first marker ends where the text ends, and so no other one starts in the text
  have hstart : ∀ t ∈ Marker.regionBegin.sites (lines ++ line), t.start = s.start := by
    intro t ht
    have ht' : t.extend rest ∈ Marker.regionBegin.sites (lines ++ line ++ rest) := by
      rw [hsites]
      exact List.mem_append_left _ (List.mem_map_of_mem ht)
    by_contra hne
    have hlt : s.start < (t.extend rest).start :=
      Nat.lt_of_le_of_ne (hle t ht) fun e => hne e.symm
    have hbehind := Marker.stop_le_start_of_mem_sites hs ht' hlt
    have hinside := Marker.start_lt_stop_of_mem_sites ht
    have hbytes := (Marker.start_le_stop_of_mem_sites ht).2
    rw [hstop, Marker.Site.extend] at hbehind
    dsimp only at hbehind
    omega
  refine ⟨start, ?_⟩
  have hordered := Marker.pairwise_sites .regionBegin (lines ++ line)
  cases hall : Marker.regionBegin.sites (lines ++ line) with
  | nil =>
    rw [hall] at hend
    cases hend
  | cons a more =>
    rw [hall] at hend hstart hordered
    cases more with
    | nil => rw [List.mem_singleton.1 hend]
    | cons b more =>
      have hlt := List.rel_of_pairwise_cons hordered List.mem_cons_self
      have ha := hstart a List.mem_cons_self
      have hb := hstart b (List.mem_cons_of_mem a List.mem_cons_self)
      omega

/-- No opening of a namespace goes on behind the marker. -/
theorem openingsBefore_remark (v v' : List Char) :
    openingsBefore (lines ++ line) v = openingsBefore (lines ++ line) v' := by
  obtain ⟨before, marker, hu, hbegin⟩ := h.endsWithBegin
  obtain ⟨_, hmarker, ⟨inner, rfl, -⟩⟩ := Marker.exists_of_after? hbegin
  rw [List.append_nil] at hmarker
  subst hmarker
  refine List.filterMap_congr fun p hp => ?_
  obtain ⟨pre, hpre, hne, -⟩ := exists_of_mem_startsFrom hp
  have hend : p.rest <:+ before ++ (Marker.sign ++ inner) := ⟨pre, hpre.symm.trans hu⟩
  rcases Marker.suffix_append_cases hend with ⟨a, ha⟩ | ⟨a, -, ha⟩
  · have hslash : ∀ v, namespaceOpening? (p.extend v) = namespaceOpening? ⟨p.before, p.offset, a⟩ := by
      intro v
      rw [Cursor.extend, ha, List.append_assoc]
      exact namespaceOpening?_append_slash p.before p.offset a ('/' :: '=' :: (inner ++ v))
    rw [hslash, hslash]
  · have hnone : ∀ v, namespaceOpening? (p.extend v) = none := by
      intro v
      obtain ⟨c, cs, hrest⟩ := List.exists_cons_of_ne_nil hne
      have hn : 'n' ≠ c := by
        rintro rfl
        rw [hrest] at ha
        exact Marker.notMem_of_after?_regionBegin hbegin
          (ha ▸ List.mem_append_right a List.mem_cons_self)
      rw [namespaceOpening?_eq, Cursor.extend, hrest]
      have hword : "namespace".toList.isPrefixOf? (c :: cs ++ v) = none := by
        simp [List.isPrefixOf?, hn]
      rw [hword]
      exact ite_self none
    rw [hnone, hnone]

/-- The openings of a header with a remark that opens no namespace are those without it. -/
theorem namespaceOpenings_remark (hin : openingsBefore w rest = []) :
    namespaceOpenings (lines ++ line ++ (w ++ rest)) = namespaceOpenings (lines ++ line ++ rest) := by
  have hhead : ∀ {v : List Char}, v.head?.any isWord = false → v.head? ≠ some 'n' := by
    intro v hv hn
    rw [hn] at hv
    exact absurd hv (by decide)
  have hrest := h.any_head?_isWord_rest
  rw [namespaceOpenings_append (hhead h.any_head?_isWord), namespaceOpenings_append (hhead hrest) w,
    hin, List.nil_append, namespaceOpenings_append (hhead hrest), openingsBefore_remark h]

end

end Header

end ChaiBind
