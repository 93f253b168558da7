import ChaiBind.Proofs.Header.MarkerSites
import ChaiBind.Proofs.Text.Places

/-!
# Markers in order

Markers are found in the order in which they start, and each stops before the next one starts
(`stop_le_start_of_mem_sites`). The markers of a part of a text, behind which no word goes on, are
those of the text that start and stop in it (`exists_site_part_iff`).
-/

namespace ChaiBind

open Text

/-- What is found in an ordered list is what comes first of all that could be found. -/
theorem find?_eq_some_iff_of_pairwise {α : Type} {R : α → α → Prop} (hR : ∀ a b, R a b → ¬ R b a)
    {xs : List α} (hxs : xs.Pairwise R) {p : α → Bool} {a : α} :
    xs.find? p = some a ↔ a ∈ xs ∧ p a ∧ ∀ b ∈ xs, p b → ¬ R b a := by
  have hfirst : ∀ {a}, xs.find? p = some a → ∀ b ∈ xs, p b → b = a ∨ R a b := by
    intro a ha b hb hp
    obtain ⟨-, above, below, rfl, habove⟩ := List.find?_eq_some_iff_append.1 ha
    rcases List.mem_append.1 hb with hb | hb
    · have hnot := habove b hb
      rw [hp] at hnot
      cases hnot
    · rcases List.mem_cons.1 hb with rfl | hb
      · exact .inl rfl
      · exact .inr (List.rel_of_pairwise_cons (List.pairwise_append.1 hxs).2.1 hb)
  constructor
  · intro ha
    refine ⟨List.mem_of_find?_eq_some ha, List.find?_some ha, fun b hb hp hba => ?_⟩
    rcases hfirst ha b hb hp with rfl | hab
    · exact hR b b hba hba
    · exact hR a b hab hba
  · rintro ⟨ha, hp, hleast⟩
    obtain ⟨b, hb⟩ := Option.isSome_iff_exists.1 (List.find?_isSome.2 ⟨a, ha, hp⟩)
    rcases hfirst hb a ha hp with rfl | hba
    · exact hb
    · exact absurd hba (hleast b (List.mem_of_find?_eq_some hb) (List.find?_some hb))

namespace Marker

theorem pairwise_startsFrom (before : Option Char) (offset : Nat) (cs : List Char) :
    (startsFrom before offset cs).Pairwise (·.offset < ·.offset) := by
  induction cs generalizing before offset with
  | nil => exact List.Pairwise.nil
  | cons c cs ih =>
    refine List.pairwise_cons.2 ⟨fun p hp => ?_, ih _ _⟩
    obtain ⟨pre, -, -, hoffset⟩ := exists_of_mem_startsFrom hp
    have hpos := c.utf8Size_pos
    simp only [hoffset]
    omega

/-- Markers are found in the order in which they start. -/
theorem pairwise_sites (m : Marker) (cs : List Char) :
    (m.sites cs).Pairwise (·.start < ·.start) := by
  rw [sites_eq, List.pairwise_filterMap]
  refine (pairwise_startsFrom none 0 cs).imp fun hlt s hs t ht => ?_
  obtain ⟨-, -, rfl⟩ := Option.map_eq_some_iff.1 hs
  obtain ⟨-, -, rfl⟩ := Option.map_eq_some_iff.1 ht
  exact hlt

/-- The marker is the first one of its kind. -/
def IsFirst (m : Marker) (cs : List Char) (s : Site) : Prop :=
  s ∈ m.sites cs ∧ ∀ t ∈ m.sites cs, s.start ≤ t.start

/-- The first marker of its kind with a property. -/
theorem find?_sites_eq_some_iff {m : Marker} {cs : List Char} {p : Site → Bool} {s : Site} :
    (m.sites cs).find? p = some s ↔
      s ∈ m.sites cs ∧ p s ∧ ∀ t ∈ m.sites cs, p t → s.start ≤ t.start := by
  rw [find?_eq_some_iff_of_pairwise (fun _ _ => Nat.lt_asymm) (m.pairwise_sites cs)]
  simp only [Nat.not_lt]

theorem isFirst_iff_head? {m : Marker} {cs : List Char} {s : Site} :
    m.IsFirst cs s ↔ (m.sites cs).head? = some s := by
  have hhead : (m.sites cs).head? = (m.sites cs).find? fun _ => true := by
    cases m.sites cs <;> rfl
  rw [hhead, find?_sites_eq_some_iff, IsFirst]
  simp

/-- A marker that begins a region is no other marker. -/
theorem eq_regionBegin_of_after? {m : Marker} {cs r r' : List Char}
    (hbegin : regionBegin.after? cs = some r) (h : m.after? cs = some r') : m = regionBegin := by
  rw [after?_eq] at hbegin h
  obtain ⟨rest, hsign, hbegin⟩ := Option.bind_eq_some_iff.1 hbegin
  obtain ⟨_, hsign', h⟩ := Option.bind_eq_some_iff.1 h
  obtain rfl := Option.some.inj (hsign.symm.trans hsign')
  obtain ⟨hbegin, -⟩ := Option.filter_eq_some_iff.1 hbegin
  obtain ⟨h, -⟩ := Option.filter_eq_some_iff.1 h
  obtain ⟨_, hb, -⟩ := Option.bind_eq_some_iff.1 hbegin
  have hb := List.isPrefixOf?_eq_some_iff_append_eq.1 hb
  -- the first word of every other marker starts with another letter
  cases m with
  | regionBegin => rfl
  | regionEnd | bases | enumeration =>
    obtain ⟨_, hw, -⟩ := Option.bind_eq_some_iff.1 h
    have hwords := hb.trans (List.isPrefixOf?_eq_some_iff_append_eq.1 hw).symm
    exact absurd (List.cons_eq_cons.1 hwords).1 (by decide)

/-! ## Markers do not overlap -/

/-- No sign starts inside the text of a marker. -/
theorem IsText.eq_nil_of_sign {text a b rest more : List Char} (h : IsText text) (ha : a ≠ [])
    (htext : text = a ++ b) (hsign : b ++ rest = sign ++ more) : b = [] := by
  obtain ⟨inner, hinner, hslash⟩ := h
  cases b with
  | nil => rfl
  | cons d b =>
    obtain rfl : d = '/' := (List.cons_eq_cons.1 hsign).1
    have hb : b ++ rest = '/' :: '=' :: more := (List.cons_eq_cons.1 hsign).2
    have hchars : a ++ '/' :: b = '/' :: '/' :: '=' :: inner := htext.symm.trans hinner
    -- only the second slash of the marker is left for the sign to start with
    match a, ha with
    | [_], _ =>
      obtain rfl : b = '=' :: inner := (List.cons_eq_cons.1 (List.cons_eq_cons.1 hchars).2).2
      cases hb
    | [_, _], _ => cases hchars
    | _ :: _ :: _ :: a, _ =>
      have htail : a ++ '/' :: b = inner := by
        simp only [List.cons_append, List.cons.injEq] at hchars
        exact hchars.2.2.2
      exact absurd (htail ▸ List.mem_append_right a List.mem_cons_self) hslash

theorem start_lt_stop_of_mem_sites {m : Marker} {cs : List Char} {s : Site} (hs : s ∈ m.sites cs) :
    s.start < s.stop := by
  obtain ⟨pre, text, -, htext, hstart, hstop⟩ := exists_of_mem_sites hs
  have hpos := byteLength_pos htext.ne_nil
  omega

/-- A marker stops before the next one starts. -/
theorem stop_le_start_of_mem_sites {m m' : Marker} {cs : List Char} {s t : Site}
    (hs : s ∈ m.sites cs) (ht : t ∈ m'.sites cs) (hlt : s.start < t.start) : s.stop ≤ t.start := by
  obtain ⟨pre, text, hcs, htext, hstart, hstop⟩ := exists_of_mem_sites hs
  obtain ⟨pre', text', hcs', ⟨inner, rfl, -⟩, hstart', -⟩ := exists_of_mem_sites ht
  rw [hstart, hstart'] at hlt
  rw [hstop, hstart']
  by_contra hover
  -- the text of the first marker would be `a` and, at the sign of the second one, `b`
  have hsplit : pre ++ (text ++ s.rest) = pre' ++ (sign ++ inner ++ t.rest) := hcs.symm.trans hcs'
  obtain ⟨a, rfl⟩ := isPrefix_of_byteLength_le (Nat.le_of_lt hlt) hsplit
  rw [byteLength_append] at hlt hover
  rw [List.append_assoc] at hsplit
  have hrest := List.append_cancel_left hsplit
  obtain ⟨b, rfl⟩ := isPrefix_of_byteLength_le (by omega) hrest.symm
  rw [List.append_assoc] at hrest
  have hsign := List.append_cancel_left hrest
  rw [List.append_assoc] at hsign
  have ha : a ≠ [] := by
    rintro rfl
    exact Nat.lt_irrefl _ hlt
  obtain rfl := htext.eq_nil_of_sign ha rfl hsign
  rw [List.append_nil] at hover
  omega

/-! ## Markers of a part -/

theorem isPrefixOf?_append_iff {w x r v : List Char} :
    w.isPrefixOf? (x ++ v) = some (r ++ v) ↔ w.isPrefixOf? x = some r := by
  rw [List.isPrefixOf?_eq_some_iff_append_eq, List.isPrefixOf?_eq_some_iff_append_eq,
    ← List.append_assoc, List.append_left_inj]

/-- Words end in a text if they do with more text behind it. -/
theorem afterWords_append_iff {ws : List (List Char)}
    (hws : ∀ w ∈ ws, w ≠ [] ∧ ∀ c ∈ w, isWord c) {x r v : List Char} :
    afterWords ws (x ++ v) = some (r ++ v) ↔ afterWords ws x = some r := by
  induction ws generalizing x with
  | nil => simp [afterWords]
  | cons w ws ih =>
    obtain ⟨⟨hne, hw⟩, hws⟩ := List.forall_mem_cons.1 hws
    simp only [afterWords, dropSpaces_append, Option.bind_eq_some_iff]
    constructor
    · rintro ⟨rest, hrest, h⟩
      obtain ⟨inner, rfl, -⟩ := exists_of_afterWords (fun w hw => (hws w hw).2) h
      rw [← List.append_assoc] at hrest h
      split at hrest
      · -- the first word would take more than all of the text behind
        have hlength := congrArg List.length (List.isPrefixOf?_eq_some_iff_append_eq.1 hrest)
        have hle := (List.dropWhile_suffix (l := v) isSpaceOrTab).length_le
        have hpos := List.length_pos_of_ne_nil hne
        rw [dropSpaces] at hlength
        simp only [List.length_append] at hlength
        omega
      · exact ⟨_, isPrefixOf?_append_iff.1 hrest, (ih hws).1 h⟩
    · rintro ⟨rest, hrest, h⟩
      have hword := List.isPrefixOf?_eq_some_iff_append_eq.1 hrest
      have hdrop : dropSpaces x ≠ [] := by
        rw [← hword]
        exact List.append_ne_nil_of_left_ne_nil hne rest
      rw [if_neg hdrop]
      exact ⟨_, isPrefixOf?_append_iff.2 hrest, (ih hws).2 h⟩

section Part

variable {m : Marker} {v : List Char} (hv : v.head?.any isWord = false)
include hv

theorem after?_append_iff {x r : List Char} :
    m.after? (x ++ v) = some (r ++ v) ↔ m.after? x = some r := by
  have hhead : ∀ r : List Char, (!(r ++ v).head?.any isWord) = !r.head?.any isWord := by
    intro r
    cases r with
    | nil => simp [hv]
    | cons d r => rfl
  simp only [after?_eq, Option.bind_eq_some_iff, Option.filter_eq_some_iff, hhead]
  constructor
  · rintro ⟨rest, hsign, hwords, hend⟩
    obtain ⟨inner, rfl, -⟩ := exists_of_afterWords (fun w hw => (m.isWord_of_mem_words w hw).2) hwords
    rw [← List.append_assoc] at hsign hwords
    exact ⟨_, isPrefixOf?_append_iff.1 hsign,
      (afterWords_append_iff m.isWord_of_mem_words).1 hwords, hend⟩
  · rintro ⟨rest, hsign, hwords, hend⟩
    exact ⟨_, isPrefixOf?_append_iff.2 hsign,
      (afterWords_append_iff m.isWord_of_mem_words).2 hwords, hend⟩

/-- The markers of a part are those of the text that start and stop in it. -/
theorem exists_site_part_iff {u cs : List Char} {n : Nat} :
    (∃ s ∈ m.sites cs, s.start = n) ↔
      ∃ s ∈ m.sites (u ++ cs ++ v), s.start = byteLength u + n ∧ s.stop ≤ byteLength (u ++ cs) := by
  constructor
  · rintro ⟨s, hs, rfl⟩
    obtain ⟨pre, text, rfl, hafter, hstart, hstop⟩ := mem_sites_iff.1 hs
    have hlonger := (after?_append_iff hv).2 hafter
    rw [List.append_assoc] at hlonger
    refine ⟨⟨byteLength (u ++ pre), byteLength (u ++ pre) + byteLength text, s.rest ++ v⟩,
      mem_sites_iff.2 ⟨u ++ pre, text, by simp only [List.append_assoc], hlonger, rfl, rfl⟩, ?_, ?_⟩
    · rw [byteLength_append, hstart]
    · simp only [byteLength_append]
      omega
  · rintro ⟨s, hs, hn, hle⟩
    obtain ⟨pre, text, hsplit, hafter, hstart, hstop⟩ := mem_sites_iff.1 hs
    rw [hstop, ← byteLength_append] at hle
    rw [← List.append_assoc] at hsplit
    obtain ⟨r, hr⟩ := isPrefix_of_byteLength_le hle hsplit.symm
    rw [← hr, List.append_assoc (pre ++ text)] at hsplit
    have hrest : s.rest = r ++ v := (List.append_cancel_left hsplit).symm
    rw [List.append_assoc] at hr
    obtain ⟨pre, rfl⟩ := isPrefix_of_byteLength_le (by omega) hr.symm
    rw [List.append_assoc] at hr
    obtain rfl := List.append_cancel_left hr
    rw [hrest, ← List.append_assoc] at hafter
    rw [byteLength_append, hn] at hstart
    exact ⟨⟨byteLength pre, byteLength pre + byteLength text, r⟩,
      mem_sites_iff.2 ⟨pre, text, rfl, (after?_append_iff hv).1 hafter, rfl, rfl⟩, by simp only; omega⟩

end Part

end Marker

end ChaiBind
