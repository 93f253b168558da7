import ChaiBind.Header.Marker
import ChaiBind.Proofs.Text.LineBreaks

/-!
# Markers on both sides of a break

No marker goes on over the end of a line or into a comment that has a blank in front
of it (`EndsMarker`). So the markers of a text that is broken there are those of its
two parts (`sites_append`).
-/

namespace ChaiBind

open Text

namespace Marker

theorem isWord_of_mem_words (m : Marker) : ∀ w ∈ m.words, w ≠ [] ∧ ∀ c ∈ w, isWord c := by
  cases m <;> decide +kernel

/-- No marker that starts before a text with this start goes on in it. -/
structure EndsMarker (v : List Char) : Prop where
  word : v.head?.any isWord = false
  sign : v.head? ≠ some '/' ∧ v.head? ≠ some '='
  behind : (dropSpaces v).head?.any isWord = false

theorem endsMarker_of_startsLine {v : List Char} (h : StartsLine v) : EndsMarker v := by
  rcases h.eq_nil_or with rfl | ⟨v, rfl⟩
  · exact ⟨rfl, by simp, rfl⟩
  · exact ⟨rfl, by simp, rfl⟩

theorem endsMarker_lineComment (c : List Char) : EndsMarker (lineComment c) :=
  ⟨rfl, by simp [lineComment], rfl⟩

/-- A text that is no part of a word in front of it leaves the word alone. -/
theorem isPrefixOf?_append {w v : List Char} (hv : ∀ d ∈ v.head?, d ∉ w) (x : List Char) :
    w.isPrefixOf? (x ++ v) = (w.isPrefixOf? x).map (· ++ v) := by
  ext r
  simp only [List.isPrefixOf?_eq_some_iff_append_eq, Option.map_eq_some_iff]
  constructor
  · intro h
    rcases List.append_eq_append_iff.1 h with ⟨a, hx, ha⟩ | ⟨a, hw, ha⟩
    · exact ⟨a, hx.symm, ha.symm⟩
    · cases a with
      | nil => exact ⟨[], by rw [hw, List.append_nil, List.append_nil], by simpa using ha⟩
      | cons d a =>
        rw [ha] at hv
        exact absurd (hw ▸ List.mem_append_right x List.mem_cons_self) (hv d rfl)
  · rintro ⟨a, rfl, rfl⟩
    exact (List.append_assoc ..).symm

theorem isPrefixOf?_eq_none {w v : List Char} (hne : w ≠ []) (hw : ∀ c ∈ w, isWord c)
    (hv : v.head?.any isWord = false) : w.isPrefixOf? v = none := by
  cases w with
  | nil => exact absurd rfl hne
  | cons c w =>
    cases v with
    | nil => rfl
    | cons d v =>
      have hd : isWord d = false := hv
      have hc : isWord c = true := hw c List.mem_cons_self
      have hcd : (c == d) = false := by
        rw [beq_eq_false_iff_ne]
        rintro rfl
        rw [hc] at hd
        cases hd
      rw [List.isPrefixOf?, hcd]
      rfl

theorem dropSpaces_append (x v : List Char) :
    dropSpaces (x ++ v) = if dropSpaces x = [] then dropSpaces v else dropSpaces x ++ v := by
  rw [dropSpaces, List.dropWhile_append]
  simp only [List.isEmpty_iff]
  rfl

/-- A marker is its sign and its words. -/
theorem after?_eq (m : Marker) (cs : List Char) :
    m.after? cs = ("//=".toList.isPrefixOf? cs).bind fun rest =>
      (afterWords m.words rest).filter fun r => !r.head?.any isWord := by
  unfold after?
  split
  · rfl
  · rename_i hno
    cases hpre : "//=".toList.isPrefixOf? cs with
    | none => rfl
    | some rest => exact absurd (List.isPrefixOf?_eq_some_iff_append_eq.1 hpre).symm (hno rest)

section Append

variable {v : List Char} (hv : EndsMarker v)
include hv

theorem afterWords_append {ws : List (List Char)} (hws : ∀ w ∈ ws, w ≠ [] ∧ ∀ c ∈ w, isWord c)
    (x : List Char) : afterWords ws (x ++ v) = (afterWords ws x).map (· ++ v) := by
  induction ws generalizing x with
  | nil => rfl
  | cons w ws ih =>
    obtain ⟨⟨hne, hw⟩, hws⟩ := List.forall_mem_cons.1 hws
    have hhead : ∀ d ∈ v.head?, d ∉ w := by
      intro d hd
      have hword := hv.word
      rw [Option.mem_def.1 hd] at hword
      exact notMem_of_isWord hw hword
    rw [afterWords, afterWords, dropSpaces_append]
    split
    · rename_i hnil
      rw [isPrefixOf?_eq_none hne hw hv.behind, hnil, isPrefixOf?_eq_none hne hw rfl]
      rfl
    · rw [isPrefixOf?_append hhead]
      cases w.isPrefixOf? (dropSpaces x) with
      | none => rfl
      | some r => exact ih hws r

theorem after?_append (m : Marker) (x : List Char) :
    m.after? (x ++ v) = (m.after? x).map (· ++ v) := by
  have hsign : ∀ d ∈ v.head?, d ∉ "//=".toList := by
    intro d hd hmem
    have hcases : d = '/' ∨ d = '=' := by simpa using hmem
    rcases hcases with rfl | rfl
    · exact hv.sign.1 (Option.mem_def.1 hd)
    · exact hv.sign.2 (Option.mem_def.1 hd)
  rw [after?_eq, after?_eq, isPrefixOf?_append hsign]
  cases "//=".toList.isPrefixOf? x with
  | none => rfl
  | some rest =>
    have hhead : ∀ r : List Char, (!(r ++ v).head?.any isWord) = !r.head?.any isWord := by
      intro r
      cases r with
      | nil => simp [hv.word]
      | cons d r => rfl
    simp only [Option.map_some, Option.bind_some, afterWords_append hv m.isWord_of_mem_words,
      Option.filter_map, Function.comp_def, hhead]

end Append

/-! ## Sites -/

namespace Site

/-- The site with more text behind it. -/
def extend (v : List Char) (s : Site) : Site := { s with rest := s.rest ++ v }

/-- The site in a text with some bytes more before it. -/
def shift (n : Nat) (s : Site) : Site := { s with start := n + s.start, stop := n + s.stop }

end Site

theorem siteAt?_extend {m : Marker} {v : List Char} {p : Cursor}
    (h : m.after? (p.rest ++ v) = (m.after? p.rest).map (· ++ v)) :
    m.siteAt? (p.extend v) = (m.siteAt? p).map (Site.extend v) := by
  simp only [siteAt?, Cursor.extend, h, Option.map_map]
  cases m.after? p.rest with
  | none => rfl
  | some r =>
    simp only [Option.map_some, Function.comp_apply, Site.extend, byteLength_append,
      Nat.add_sub_add_right]

theorem filterMap_siteAt?_cursorsFrom (m : Marker) (before before' : Option Char) (n offset : Nat)
    (cs : List Char) :
    (cursorsFrom before (n + offset) cs).filterMap m.siteAt? =
      ((cursorsFrom before' offset cs).filterMap m.siteAt?).map (Site.shift n) := by
  induction cs generalizing before before' offset with
  | nil => rfl
  | cons c cs ih =>
    have hfirst : m.siteAt? ⟨before, n + offset, c :: cs⟩ =
        (m.siteAt? ⟨before', offset, c :: cs⟩).map (Site.shift n) := by
      simp only [siteAt?]
      cases m.after? (c :: cs) with
      | none => rfl
      | some r => simp only [Option.map_some, Site.shift, Nat.add_assoc]
    rw [cursorsFrom, cursorsFrom, List.filterMap_cons, List.filterMap_cons, hfirst, Nat.add_assoc,
      ih (some c) (some c)]
    cases m.siteAt? ⟨before', offset, c :: cs⟩ <;> rfl

theorem sites_eq (m : Marker) (cs : List Char) :
    m.sites cs = (startsFrom none 0 cs).filterMap m.siteAt? := by
  have hnil : ∀ before offset, m.siteAt? ⟨before, offset, []⟩ = none := fun _ _ => rfl
  rw [sites, cursors, cursorsFrom_eq, List.filterMap_append, List.filterMap_cons, hnil]
  simp

/-- The sign with which every marker starts. -/
def sign : List Char := "//=".toList

/-- The text of a marker has no slash behind its sign. -/
def IsText (text : List Char) : Prop := ∃ inner, text = sign ++ inner ∧ '/' ∉ inner

theorem IsText.ne_nil {text : List Char} (h : IsText text) : text ≠ [] := by
  obtain ⟨inner, rfl, -⟩ := h
  exact List.cons_ne_nil _ _

/-- Words, and the spaces and tabs before them, stand between a text and what follows them. -/
theorem exists_chars_of_afterWords {ws : List (List Char)} {cs r : List Char}
    (h : afterWords ws cs = some r) :
    ∃ inner, cs = inner ++ r ∧ ∀ c ∈ inner, isSpaceOrTab c ∨ ∃ w ∈ ws, c ∈ w := by
  induction ws generalizing cs with
  | nil =>
    obtain rfl := Option.some.inj h
    exact ⟨[], rfl, nofun⟩
  | cons w ws ih =>
    obtain ⟨rest, hrest, h⟩ := Option.bind_eq_some_iff.1 h
    obtain ⟨inner, rfl, hinner⟩ := ih h
    have hword := List.isPrefixOf?_eq_some_iff_append_eq.1 hrest
    refine ⟨cs.takeWhile isSpaceOrTab ++ w ++ inner, ?_, fun c hc => ?_⟩
    · rw [List.append_assoc, List.append_assoc, hword, dropSpaces, List.takeWhile_append_dropWhile]
    · simp only [List.mem_append] at hc
      rcases hc with (hc | hc) | hc
      · exact .inl (List.mem_takeWhile_imp hc)
      · exact .inr ⟨w, List.mem_cons_self, hc⟩
      · exact (hinner c hc).imp_right fun ⟨w', hw', hc⟩ => ⟨w', List.mem_cons_of_mem w hw', hc⟩

theorem exists_of_afterWords {ws : List (List Char)} (hws : ∀ w ∈ ws, ∀ c ∈ w, isWord c)
    {cs r : List Char} (h : afterWords ws cs = some r) :
    ∃ inner, cs = inner ++ r ∧ '/' ∉ inner := by
  obtain ⟨inner, hcs, hinner⟩ := exists_chars_of_afterWords h
  refine ⟨inner, hcs, fun hslash => ?_⟩
  rcases hinner _ hslash with hspace | ⟨w, hw, hmem⟩
  · exact absurd hspace (by decide)
  · exact absurd (hws w hw _ hmem) (by decide)

theorem exists_of_after? {m : Marker} {cs r : List Char} (h : m.after? cs = some r) :
    ∃ text, cs = text ++ r ∧ IsText text := by
  rw [after?_eq] at h
  obtain ⟨rest, hsign, h⟩ := Option.bind_eq_some_iff.1 h
  obtain ⟨hwords, -⟩ := Option.filter_eq_some_iff.1 h
  obtain ⟨inner, rfl, hinner⟩ :=
    exists_of_afterWords (fun w hw => (m.isWord_of_mem_words w hw).2) hwords
  refine ⟨sign ++ inner, ?_, inner, rfl, hinner⟩
  rw [List.append_assoc]
  exact (List.isPrefixOf?_eq_some_iff_append_eq.1 hsign).symm

/-- The markers of a text are all that can be read from some place of it on. -/
theorem mem_sites_iff {m : Marker} {cs : List Char} {s : Site} :
    s ∈ m.sites cs ↔ ∃ pre text, cs = pre ++ (text ++ s.rest) ∧
      m.after? (text ++ s.rest) = some s.rest ∧ s.start = byteLength pre ∧
      s.stop = byteLength pre + byteLength text := by
  constructor
  · intro h
    rw [sites_eq, List.mem_filterMap] at h
    obtain ⟨p, hp, hs⟩ := h
    obtain ⟨pre, rfl, -, hoffset⟩ := exists_of_mem_startsFrom hp
    obtain ⟨r, hr, rfl⟩ := Option.map_eq_some_iff.1 hs
    rw [Nat.zero_add] at hoffset
    obtain ⟨text, htext, -⟩ := exists_of_after? hr
    refine ⟨pre, text, by rw [htext], by rw [← htext, hr], hoffset, ?_⟩
    simp only [htext, byteLength_append, hoffset, Nat.add_sub_cancel]
  · rintro ⟨pre, text, rfl, hafter, hstart, hstop⟩
    refine List.mem_filterMap.2 ⟨⟨pre.getLast?.or none, 0 + byteLength pre, text ++ s.rest⟩, ?_, ?_⟩
    · rw [cursors, cursorsFrom_append]
      cases text ++ s.rest <;> exact List.mem_append_right _ List.mem_cons_self
    · rw [siteAt?, hafter, Option.map_some, byteLength_append, Nat.add_sub_cancel, Nat.zero_add,
        ← hstop, ← hstart]

/-- A marker stands in its text between what comes before it and what follows. -/
theorem exists_of_mem_sites {m : Marker} {cs : List Char} {s : Site} (h : s ∈ m.sites cs) :
    ∃ pre text, cs = pre ++ (text ++ s.rest) ∧ IsText text ∧ s.start = byteLength pre ∧
      s.stop = byteLength pre + byteLength text := by
  obtain ⟨pre, text, hcs, hafter, hplace⟩ := mem_sites_iff.1 h
  obtain ⟨text', htext, hshape⟩ := exists_of_after? hafter
  obtain rfl := List.append_cancel_right htext
  exact ⟨pre, text, hcs, hshape, hplace⟩

/-- The markers of a text in two parts, if none goes on from the first one into the second. -/
theorem sites_append_of_break {m : Marker} {u v : List Char}
    (h : ∀ p ∈ startsFrom none 0 u, m.after? (p.rest ++ v) = (m.after? p.rest).map (· ++ v)) :
    m.sites (u ++ v) =
      (m.sites u).map (Site.extend v) ++ (m.sites v).map (Site.shift (byteLength u)) := by
  have hfirst : ((startsFrom none 0 u).map (Cursor.extend v)).filterMap m.siteAt? =
      ((startsFrom none 0 u).filterMap m.siteAt?).map (Site.extend v) := by
    rw [List.filterMap_map, List.map_filterMap]
    exact List.filterMap_congr fun p hp => siteAt?_extend (h p hp)
  rw [sites, cursors, cursorsFrom_append, List.filterMap_append, hfirst, ← sites_eq,
    Nat.zero_add, ← Nat.add_zero (byteLength u), filterMap_siteAt?_cursorsFrom m _ none]
  rfl

/-- The markers of a text that is broken between two lines or before a comment. -/
theorem sites_append (m : Marker) {u v : List Char} (h : EndsLine u ∨ EndsMarker v) :
    m.sites (u ++ v) =
      (m.sites u).map (Site.extend v) ++ (m.sites v).map (Site.shift (byteLength u)) := by
  refine sites_append_of_break fun p hp => ?_
  rcases h with hu | hv
  · obtain ⟨pre, rfl, hne, -⟩ := exists_of_mem_startsFrom hp
    obtain ⟨y, hy⟩ := hu.exists_of_append hne
    have hnewline : ∀ ds, EndsMarker ('\n' :: ds) := fun ds =>
      endsMarker_of_startsLine (startsLine_newline ds)
    rw [hy, List.append_assoc, List.singleton_append, after?_append (hnewline v),
      after?_append (hnewline []), Option.map_map]
    congr 1
    funext r
    simp
  · exact after?_append hv m p.rest

end Marker

end ChaiBind
