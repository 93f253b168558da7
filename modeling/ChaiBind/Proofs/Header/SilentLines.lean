import ChaiBind.Proofs.Header.LineEnds
import ChaiBind.Proofs.Text.PlainText
import ChaiBind.Proofs.Text.StrippedLines

/-!
# Lines in which nothing is found

A text without the sign of a marker has no markers, one without the word `class` declares
no classes, and one without the word `namespace` opens no namespaces. What is found in a
header is therefore found in the lines that have these, wherever they stand.

* `Marker.sites_around`: the markers of a text with such text around it.
* `classDeclarations_eq_nil`, `openingsBefore_eq_nil`: text without the words.
-/

namespace ChaiBind

open Text

namespace Marker

/-! ## Markers -/

theorem siteAt?_eq_none {m : Marker} {p : Cursor} (h : ¬ sign <+: p.rest) : m.siteAt? p = none := by
  have hnone : m.after? p.rest = none := by
    unfold after?
    split
    · rename_i rest hrest
      exact absurd ⟨rest, hrest.symm⟩ h
    · rfl
  rw [siteAt?, hnone]
  rfl

theorem sites_eq_nil {m : Marker} {cs : List Char} (h : ¬ sign <:+: cs) : m.sites cs = [] := by
  rw [sites_eq, List.filterMap_eq_nil_iff]
  intro p hp
  obtain ⟨pre, hcs, -, -⟩ := exists_of_mem_startsFrom hp
  refine siteAt?_eq_none fun hsign => h ?_
  rw [hcs]
  exact hsign.isInfix.trans (List.suffix_append pre p.rest).isInfix

theorem sites_of_notMem {m : Marker} {cs : List Char} (h : '/' ∉ cs) : m.sites cs = [] :=
  sites_eq_nil fun hsign => h (hsign.subset List.mem_cons_self)

/-- At most one marker starts with the sign. -/
theorem sites_sign_append {m : Marker} {cs : List Char} (h : '/' ∉ cs) :
    m.sites (sign ++ cs) = (m.siteAt? ⟨none, 0, sign ++ cs⟩).toList := by
  have hshift := filterMap_siteAt?_cursorsFrom m (some '=') none 3 0 cs
  rw [← cursors, ← sites, sites_of_notMem h, List.map_nil] at hshift
  show (⟨none, 0, sign ++ cs⟩ :: ⟨some '/', 1, '/' :: '=' :: cs⟩ :: ⟨some '/', 2, '=' :: cs⟩ ::
    cursorsFrom (some '=') 3 cs : List Cursor).filterMap m.siteAt? = _
  have hsecond : m.siteAt? ⟨some '/', 1, '/' :: '=' :: cs⟩ = none := rfl
  have hthird : m.siteAt? ⟨some '/', 2, '=' :: cs⟩ = none := rfl
  rw [List.filterMap_cons, List.filterMap_cons, hsecond, List.filterMap_cons, hthird, hshift]
  cases m.siteAt? ⟨none, 0, sign ++ cs⟩ <;> rfl

theorem sites_append_eq_nil {m : Marker} {u v : List Char} (hu : EndsLine u) (hun : m.sites u = [])
    (hvn : m.sites v = []) : m.sites (u ++ v) = [] := by
  rw [sites_append m (.inl hu), hun, hvn]
  rfl

/-- The markers of whole lines with lines in front of them and behind them that have none. -/
theorem sites_around {m : Marker} {u v w : List Char} (hu : EndsLine u) (hv : EndsLine v)
    (hun : m.sites u = []) (hwn : m.sites w = []) :
    m.sites (u ++ (v ++ w)) =
      (m.sites v).map fun s => (s.extend w).shift (byteLength u) := by
  rw [sites_append m (.inl hu), hun, sites_append m (.inl hv), hwn, List.map_nil, List.map_nil,
    List.nil_append, List.append_nil, List.map_map]
  rfl

end Marker

namespace Header

/-! ## Classes -/

theorem declaredName?_eq_none {line : List Char}
    (h : containsWord "class".toList line = false) : declaredName? line = none := by
  rw [declaredName?_eq, Option.bind_eq_none_iff]
  intro rest hrest
  rw [nameBehindClass?, if_neg]
  intro hspace
  have hword : startsWithWord "class".toList (dropSpaces line) := by
    refine startsWithWord_iff.2 ⟨rest, List.isPrefixOf?_eq_some_iff_append_eq.1 hrest, ?_⟩
    obtain ⟨c, hc, hblank⟩ := Option.any_eq_true _ _ |>.1 hspace
    rw [hc]
    exact isWord_eq_false_of_isBlank (isBlank_of_isSpaceOrTab hblank)
  have hbefore : ((line.takeWhile isSpaceOrTab).getLast?.or none).any isWord = false := by
    rw [Option.or_none, Option.any_eq_false]
    intro c hc
    have hspace : isSpaceOrTab c := List.mem_takeWhile_imp (List.mem_of_getLast? hc)
    exact isWord_eq_false_of_isBlank (isBlank_of_isSpaceOrTab hspace)
  have hfound : 0 < countFrom (wordAt "class".toList) none
      (line.takeWhile isSpaceOrTab ++ dropSpaces line) :=
    countFrom_append_pos (by rw [wordAt, hbefore, hword]; rfl)
  rw [dropSpaces, List.takeWhile_append_dropWhile] at hfound
  rw [containsWord_eq_false_iff] at h
  omega

theorem classDeclarations_eq_nil {cs : List Char} (h : containsWord "class".toList cs = false) :
    classDeclarations cs = [] := by
  have hnewline : '\n' ∉ "class".toList ∧ isWord '\n' = false := by decide
  induction cs using linesInduction with
  | last line hline =>
    rw [classDeclarations_line hline, declaredName?_eq_none h]
    rfl
  | cons line rest hline ih =>
    rw [containsWord_append_cons hnewline.1 hnewline.2, Bool.or_eq_false_iff] at h
    rw [classDeclarations_append_newline, classDeclarations_line hline, declaredName?_eq_none h.1,
      ih h.2]
    rfl

/-! ## Namespaces -/

theorem hasWord_of_namespaceOpening? {p : Cursor} (h : (namespaceOpening? p).isSome) :
    p.hasWord "namespace".toList := by
  rw [namespaceOpening?] at h
  rw [Cursor.hasWord]
  cases hbefore : p.before.any isWord with
  | true =>
    rw [hbefore] at h
    cases h
  | false =>
    cases hrest : "namespace".toList.isPrefixOf? p.rest with
    | none =>
      rw [hbefore, hrest] at h
      cases h
    | some rest =>
      have hblank : rest.head?.any isBlank := by
        by_contra hno
        rw [hbefore, hrest] at h
        simp [hno] at h
      refine startsWithWord_iff.2 ⟨rest, List.isPrefixOf?_eq_some_iff_append_eq.1 hrest, ?_⟩
      cases rest with
      | nil => rfl
      | cons c rest => exact isWord_eq_false_of_isBlank hblank

theorem any_isWord_getLast? {u : List Char} (hu : EndsLine u) :
    (u.getLast?.or none).any isWord = false := by
  rcases hu.eq_nil_or with rfl | ⟨u, rfl⟩
  · rfl
  · rw [List.getLast?_append]
    rfl

/-- Whole lines open what starts in them. -/
theorem namespaceOpenings_append_of_endsLine {u : List Char} (hu : EndsLine u) (v : List Char) :
    namespaceOpenings (u ++ v) = openingsBefore u v ++ namespaceOpenings v := by
  rw [namespaceOpenings, cursors, cursorsFrom_append, List.filterMap_append,
    filterMap_namespaceOpening?_cursorsFrom (.inl (any_isWord_getLast? hu)), List.filterMap_map]
  rfl

/-- Whole lines without the word open nothing, whatever follows them. -/
theorem filterMap_namespaceOpening?_startsFrom {u : List Char} (hu : EndsLine u)
    {before : Option Char} (h : countFrom (wordAt "namespace".toList) before u = 0)
    (offset : Nat) (v : List Char) :
    (startsFrom before offset u).filterMap (fun p => namespaceOpening? (p.extend v)) = [] := by
  have hnewline : '\n' ∉ "namespace".toList ∧ isWord '\n' = false := by decide
  rw [List.filterMap_eq_nil_iff]
  intro p hp
  rw [← Option.not_isSome_iff_eq_none]
  intro hopening
  obtain ⟨pre, hpre, hne, -⟩ := exists_of_mem_startsFrom hp
  obtain ⟨y, hy⟩ := (hpre ▸ hu).exists_of_append hne
  -- The word does not go on over the newline at the end of the lines.
  have hword : p.hasWord "namespace".toList := by
    have hextended := hasWord_of_namespaceOpening? hopening
    have hrest : startsWithWord "namespace".toList (p.rest ++ v) =
        startsWithWord "namespace".toList p.rest := by
      rw [hy, List.append_assoc, List.singleton_append,
        startsWithWord_append_cons hnewline.1 hnewline.2,
        startsWithWord_append_cons hnewline.1 hnewline.2]
    rw [Cursor.hasWord, Cursor.extend, hrest] at hextended
    exact hextended
  have hmem : p ∈ cursorsFrom before offset u := by
    rw [cursorsFrom_eq]
    exact List.mem_append_left _ hp
  rw [← countP_cursorsFrom before offset u, List.countP_eq_zero] at h
  exact h p hmem hword

theorem openingsBefore_eq_nil {u : List Char} (hu : EndsLine u)
    (h : containsWord "namespace".toList u = false) (v : List Char) : openingsBefore u v = [] :=
  filterMap_namespaceOpening?_startsFrom hu (containsWord_eq_false_iff.1 h) 0 v

/-- Text without the word opens nothing. -/
theorem namespaceOpenings_eq_nil {u : List Char} (hu : EndsLine u)
    (h : containsWord "namespace".toList u = false) : namespaceOpenings u = [] := by
  rw [namespaceOpenings_eq, openingsBefore_eq_nil hu h]

end Header

end ChaiBind
