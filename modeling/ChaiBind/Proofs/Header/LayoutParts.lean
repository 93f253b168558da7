import ChaiBind.Proofs.Header.Layout
import ChaiBind.Proofs.Header.NamespaceGrammar

/-!
# What is found in a header as documented

Each part of a layout is found in its own lines and nowhere else.

* `sites_text_region`, `sites_text_enumeration`: the markers of the region and of the enumerations.
* `basesOf_text`: the bases.
* `classDeclarations_text`: the class.
* `namespaceOpenings_text`: the namespaces.
-/

namespace ChaiBind

open Text

namespace Marker

theorem after?_text (m m' : Marker) {cs : List Char} (hcs : cs.head?.any isWord = false) :
    m.after? (m'.text ++ cs) = if m = m' then some cs else none := by
  have hends : (some cs).filter (fun r => !r.head?.any isWord) = some cs := by
    rw [Option.filter_some, hcs]
    rfl
  split
  · rename_i heq
    subst heq
    cases m <;> exact hends
  · rename_i hne
    cases m <;> cases m' <;> first | rfl | exact absurd rfl hne

/-- A line with a marker has this marker and no other. -/
theorem sites_text_append (m m' : Marker) {cs : List Char} (hslash : '/' ∉ cs)
    (hcs : cs.head?.any isWord = false) :
    m.sites (m'.text ++ cs) = if m = m' then [⟨0, byteLength m'.text, cs⟩] else [] := by
  have hsign : m'.text ++ cs = sign ++ (' ' :: ([' '].intercalate m'.words ++ cs)) := rfl
  have hrest : '/' ∉ ' ' :: ([' '].intercalate m'.words ++ cs) := by
    rw [← List.cons_append, List.mem_append, not_or]
    refine ⟨?_, hslash⟩
    cases m' <;> decide
  rw [hsign, sites_sign_append hrest, ← hsign, siteAt?, after?_text m m' hcs]
  split
  · simp only [Option.map_some, Option.toList_some, byteLength_append, Nat.add_sub_cancel,
      Nat.zero_add]
  · rfl

end Marker

namespace Header

theorem sites_markerLine (m m' : Marker) :
    m.sites (joinLines [m'.text]) = if m = m' then [⟨0, byteLength m'.text, ['\n']⟩] else [] := by
  rw [joinLines_singleton]
  exact Marker.sites_text_append m m' (by decide) rfl

theorem sites_markerLine_of_ne {m m' : Marker} (hne : m ≠ m') :
    m.sites (joinLines [m'.text]) = [] := by
  rw [sites_markerLine, if_neg hne]

theorem sites_of_isLayoutChar {m : Marker} {line : List Char} (h : ∀ c ∈ line, isLayoutChar c) :
    m.sites line = [] :=
  Marker.sites_of_notMem (notMem_of_isLayoutChar h (by decide))

/-! ## Names -/

/-- Nothing is taken off either end of a text that has no such characters. -/
theorem dropWhile_ends_eq_self {p : Char → Bool} {cs : List Char} (h : ∀ c ∈ cs, p c = false) :
    ((cs.dropWhile p).reverse.dropWhile p).reverse = cs := by
  have hself : ∀ ds : List Char, (∀ c ∈ ds, p c = false) → ds.dropWhile p = ds := by
    intro ds hds
    refine dropWhile_eq_self ?_
    rw [Option.any_eq_false]
    exact fun c hc => hds c (List.mem_of_head? hc)
  rw [hself cs h, hself cs.reverse fun c hc => h c (List.mem_reverse.1 hc), List.reverse_reverse]

section

variable {name : List Char} (h : IsName name)
include h

theorem IsName.ne_nil : name ≠ [] := by
  rintro rfl
  cases h.1

/-- No name loses a comma. -/
theorem trimCommas_name : trimCommas name = name := by
  refine dropWhile_ends_eq_self fun c hc => decide_eq_false fun hcomma => ?_
  have hword := h.1.isWord_of_mem hc
  rw [hcomma] at hword
  cases hword

theorem declaredName?_classLine : declaredName? (classLine name) = some name := by
  have hbrace : (" \x7b".toList).head?.any isWord = false := by decide
  have htake := takeIdentifier_append h.1 hbrace
  have hdrop : dropSpaces (' ' :: (name ++ " \x7b".toList)) = name ++ " \x7b".toList := by
    refine dropWhile_eq_self (any_head?_identifier h.1 (fun c hc => ?_) _)
    rw [← Bool.not_eq_true]
    exact fun hspace => Bool.eq_false_iff.1 (isBlank_eq_false_of_isWord hc)
      (isBlank_of_isSpaceOrTab hspace)
  have hline : declaredName? (classLine name) =
      nameBehindClass? (' ' :: (name ++ " \x7b".toList)) := by
    rw [declaredName?_eq]
    rfl
  rw [hline, nameBehindClass?, if_pos (by rfl), hdrop,
    skipAttributes_of_none (afterAttribute?_of_takeIdentifier htake), htake]
  rfl

omit h in
theorem namespaceLine_append (v : List Char) :
    namespaceLine name ++ v = "namespace".toList ++ ' ' :: (name ++ ' ' :: '\x7b' :: v) := by
  have hword : "namespace ".toList = "namespace".toList ++ [' '] := by decide
  show "namespace ".toList ++ (name ++ " \x7b".toList) ++ v = _
  rw [hword, List.append_assoc, List.append_assoc, List.append_assoc]
  rfl

theorem namespaceOpening?_namespaceLine (offset : Nat) (v : List Char) :
    namespaceOpening? ⟨none, offset, namespaceLine name ++ v⟩ = some name := by
  have hopening : IsOpening (namespaceLine name) name := by
    refine ⟨.name h.1, [' '], [' '], List.cons_ne_nil _ _, by decide, by decide, ?_⟩
    rw [← List.append_nil (namespaceLine name), namespaceLine_append]
    simp only [List.append_assoc, List.cons_append, List.nil_append]
  exact namespaceOpening?_eq_some_iff.2 ⟨rfl, _, v, hopening, rfl⟩

/-- The line of a namespace opens this namespace and no other. -/
theorem openingsBefore_namespaceLine (v : List Char) :
    openingsBefore (namespaceLine name ++ ['\n']) v = [name] := by
  have hbehind : containsWord "namespace".toList (name ++ ' ' :: ['\x7b', '\n']) = false :=
    containsWord_cut (by decide) h.containsWord_eq_false (by decide)
  have hline : namespaceLine name ++ ['\n'] =
      'n' :: ("amespace".toList ++ ' ' :: (name ++ ' ' :: ['\x7b', '\n'])) := by
    rw [namespaceLine_append]
    rfl
  have hends : EndsLine ("amespace".toList ++ ' ' :: (name ++ ' ' :: ['\x7b', '\n'])) := by
    have hnewline := endsLine_append_newline ("amespace".toList ++ ' ' :: (name ++ [' ', '\x7b']))
    rwa [List.append_assoc, List.cons_append, List.append_assoc] at hnewline
  -- A word that starts inside another one is none.
  have hcount : countFrom (wordAt "namespace".toList) (some 'n')
      ("amespace".toList ++ ' ' :: (name ++ ' ' :: ['\x7b', '\n'])) = 0 := by
    have hinside : countFrom (wordAt "namespace".toList) (some 'n') "amespace".toList = 0 := by decide
    rw [countFrom_wordAt_append_cons (by decide) (by decide), hinside,
      containsWord_eq_false_iff.1 hbehind]
  rw [openingsBefore, hline, startsFrom, List.filterMap_cons,
    filterMap_namespaceOpening?_startsFrom hends hcount, Cursor.extend, ← hline, List.append_assoc,
    namespaceOpening?_namespaceLine h]

end

theorem namespaceOpenings_namespaceLines {names : List (List Char)} (hnames : ∀ n ∈ names, IsName n)
    (v : List Char) :
    namespaceOpenings (joinLines (names.map namespaceLine) ++ v) = names ++ namespaceOpenings v := by
  induction names with
  | nil => rfl
  | cons n names ih =>
    obtain ⟨hn, hnames⟩ := List.forall_mem_cons.1 hnames
    have hline : joinLines ((n :: names).map namespaceLine) ++ v =
        (namespaceLine n ++ ['\n']) ++ (joinLines (names.map namespaceLine) ++ v) := by
      rw [List.map_cons, joinLines_cons, List.append_assoc, List.append_assoc]
      rfl
    rw [hline, namespaceOpenings_append_of_endsLine (endsLine_append_newline _),
      openingsBefore_namespaceLine hn, ih hnames]
    rfl

namespace Layout

theorem endsLine_front (l : Layout) : EndsLine l.front :=
  (endsLine_joinLines _).append (endsLine_joinLines _)

theorem endsLine_closing (l : Layout) : EndsLine l.closing :=
  (endsLine_joinLines _).append (endsLine_joinLines _)

theorem joinLines_preamble (l : Layout) :
    joinLines l.preamble = joinLines [sentinelLine] ++ joinLines l.basesLines :=
  joinLines_append [sentinelLine] l.basesLines

theorem sites_sentinelLine (m : Marker) : m.sites (joinLines [sentinelLine]) = [] := by
  cases m <;> rfl

/-- The lines behind the region, one after the other. -/
theorem closing_eq (l : Layout) :
    l.closing = joinLines (l.enums.flatMap EnumLayout.lines ++ l.closers) := by
  rw [closing, joinLines_append]

theorem sites_closers (l : Layout) (m : Marker) : m.sites (joinLines l.closers) = [] := by
  refine sites_joinLines_eq_nil (List.forall_mem_cons.2 ⟨?_, List.forall_mem_map.2 fun _ _ => ?_⟩)
  · exact Marker.sites_of_notMem (by decide)
  · exact Marker.sites_of_notMem (by decide)

section

variable {l : Layout} (h : l.WellFormed)
include h

theorem endsLine_region : EndsLine l.region :=
  (endsLine_joinLines _).append (h.whole.append (endsLine_joinLines _))

/-! ## Markers -/

theorem sites_basesLines (m : Marker) :
    m.sites (joinLines l.basesLines) =
      if m = .bases ∧ l.bases ≠ [] then
        [⟨0, byteLength Marker.bases.text, spaced l.bases ++ ['\n']⟩]
      else [] := by
  rw [basesLines]
  by_cases hbases : l.bases = []
  · rw [if_pos hbases, if_neg fun hm => hm.2 hbases]
    exact Marker.sites_of_notMem List.not_mem_nil
  · have hspaced := isLayoutChar_of_isPlain (isPlain_spaced h.bases)
    have hslash : '/' ∉ spaced l.bases ++ ['\n'] := by
      rw [List.mem_append, not_or]
      exact ⟨notMem_of_isLayoutChar hspaced (by decide), by decide⟩
    have hhead : (spaced l.bases ++ ['\n']).head?.any isWord = false := by
      obtain ⟨b, bs, hbs⟩ := List.exists_cons_of_ne_nil hbases
      rw [hbs]
      rfl
    rw [if_neg hbases, joinLines_singleton, basesLine, List.append_assoc,
      Marker.sites_text_append m .bases hslash hhead]
    simp only [hbases, ne_eq, not_false_eq_true, and_true]

theorem sites_namespaceLines (m : Marker) :
    m.sites (joinLines (l.namespaces.map namespaceLine)) = [] :=
  sites_joinLines_eq_nil (List.forall_mem_map.2 fun n hn =>
    sites_of_isLayoutChar (isLayoutChar_opening (by decide) (h.namespaces n hn)))

theorem sites_classLine (m : Marker) : m.sites (joinLines [classLine l.className]) = [] :=
  sites_joinLines_eq_nil (List.forall_mem_singleton.2
    (sites_of_isLayoutChar (isLayoutChar_opening (by decide) h.className)))

theorem sites_front {m : Marker} (hm : m ≠ .bases) : m.sites l.front = [] := by
  have hbases : m.sites (joinLines l.basesLines) = [] := by
    rw [sites_basesLines h, if_neg fun hb => hm hb.1]
  have hpreamble : m.sites (joinLines l.preamble) = [] := by
    rw [joinLines_preamble]
    exact Marker.sites_append_eq_nil (endsLine_joinLines _) (sites_sentinelLine m) hbases
  exact Marker.sites_append_eq_nil (endsLine_joinLines _) hpreamble (sites_namespaceLines h m)

theorem sites_body (m : Marker) : m.sites l.body = [] := Marker.sites_eq_nil h.unmarked

theorem sites_region {m : Marker} (hbegin : m ≠ .regionBegin) (hend : m ≠ .regionEnd) :
    m.sites l.region = [] :=
  Marker.sites_append_eq_nil (endsLine_joinLines _) (sites_markerLine_of_ne hbegin)
    (Marker.sites_append_eq_nil h.whole (sites_body h m) (sites_markerLine_of_ne hend))

theorem sites_closing {m : Marker} (hm : m ≠ .enumeration) : m.sites l.closing = [] := by
  have hmarker : m.sites Marker.enumeration.text = [] := by
    have htext := Marker.sites_text_append m .enumeration List.not_mem_nil rfl
    rwa [List.append_nil, if_neg hm] at htext
  rw [closing_eq]
  refine sites_joinLines_eq_nil (forall_mem_closing hmarker (fun e he => ?_) ?_ ?_)
  · exact sites_of_isLayoutChar (EnumLayout.isLayoutChar_line (h.enums e he))
  · exact Marker.sites_of_notMem (by decide)
  · exact Marker.sites_of_notMem (by decide)

/-- The markers of the region stand in its lines, behind the line of the class. -/
theorem sites_text_region {m : Marker} (hbases : m ≠ .bases) (henum : m ≠ .enumeration) :
    m.sites l.text = (m.sites l.region).map fun s =>
      (s.extend l.closing).shift l.regionOffset := by
  have hopening : m.sites (l.front ++ joinLines [classLine l.className]) = [] :=
    Marker.sites_append_eq_nil (endsLine_front l) (sites_front h hbases) (sites_classLine h m)
  rw [text, ← List.append_assoc, Marker.sites_around
    ((endsLine_front l).append (endsLine_joinLines _)) (endsLine_region h) hopening
    (sites_closing h henum), regionOffset]

theorem sites_text_enumeration :
    Marker.enumeration.sites l.text = (Marker.enumeration.sites l.closing).map (Marker.Site.shift
      (byteLength (l.front ++ (joinLines [classLine l.className] ++ l.region)))) := by
  have htext : l.text = (l.front ++ (joinLines [classLine l.className] ++ l.region)) ++ l.closing := by
    simp only [text, List.append_assoc]
  have hbefore : Marker.enumeration.sites
      (l.front ++ (joinLines [classLine l.className] ++ l.region)) = [] :=
    Marker.sites_append_eq_nil (endsLine_front l) (sites_front h (by decide))
      (Marker.sites_append_eq_nil (endsLine_joinLines _) (sites_classLine h _)
        (sites_region h (by decide) (by decide)))
  rw [htext, Marker.sites_append _ (.inl ((endsLine_front l).append
    ((endsLine_joinLines _).append (endsLine_region h)))), hbefore]
  rfl

/-! ## Bases -/

theorem basesOf_text : basesOf l.text = l.bases.map String.ofList := by
  have hwords : ∀ b ∈ l.bases, b ≠ [] ∧ ∀ c ∈ b, isBlank c = false := fun b hb =>
    ⟨(h.bases b hb).ne_nil, fun c hc => isBlank_eq_false_of_isWord ((h.bases b hb).1.isWord_of_mem hc)⟩
  have htrim : l.bases.map trimCommas = l.bases :=
    (List.map_congr_left fun b hb => trimCommas_name (h.bases b hb)).trans (List.map_id _)
  have hfilter : l.bases.filter (· ≠ []) = l.bases :=
    List.filter_eq_self.2 fun b hb => decide_eq_true (hwords b hb).1
  have hspaced : ∀ c ∈ spaced l.bases, decide (c ≠ '\n') = true := fun c hc =>
    decide_eq_true (ne_of_isPlain (isPlain_spaced h.bases c hc) (by decide))
  have hbehind : Marker.bases.sites (joinLines (l.namespaces.map namespaceLine) ++
      (joinLines [classLine l.className] ++ (l.region ++ l.closing))) = [] :=
    Marker.sites_append_eq_nil (endsLine_joinLines _) (sites_namespaceLines h _)
      (Marker.sites_append_eq_nil (endsLine_joinLines _) (sites_classLine h _)
        (Marker.sites_append_eq_nil (endsLine_region h) (sites_region h (by decide) (by decide))
          (sites_closing h (by decide))))
  have htext : l.text = joinLines [sentinelLine] ++ (joinLines l.basesLines ++
      (joinLines (l.namespaces.map namespaceLine) ++
        (joinLines [classLine l.className] ++ (l.region ++ l.closing)))) := by
    rw [text, front, joinLines_preamble, List.append_assoc, List.append_assoc]
  rw [basesOf_eq, htext, Marker.sites_around (endsLine_joinLines _) (endsLine_joinLines _)
    (sites_sentinelLine _) hbehind, sites_basesLines h]
  by_cases hbases : l.bases = []
  · rw [if_neg fun hm => hm.2 hbases, hbases]
    rfl
  · rw [if_pos ⟨rfl, hbases⟩, List.map_singleton, List.head?_cons, Option.map_some, Option.getD_some]
    simp only [Marker.Site.extend, Marker.Site.shift, List.append_assoc]
    rw [List.takeWhile_append_of_pos hspaced, List.singleton_append,
      List.takeWhile_cons_of_neg (by simp), List.append_nil, words_spaced hwords, htrim, hfilter]

/-! ## The class -/

theorem containsWord_region {w : List Char} (hw : IsIdentifier w)
    (hbegin : containsWord w Marker.regionBegin.text = false)
    (hend : containsWord w Marker.regionEnd.text = false) :
    containsWord w l.region = containsWord w l.body := by
  have hmarker : ∀ m : Marker, containsWord w m.text = false →
      containsWord w (joinLines [m.text]) = false := fun m hm =>
    containsWord_joinLines_eq_false hw (List.forall_mem_singleton.2 hm)
  rw [region, containsWord_append hw (endsLine_joinLines _), containsWord_append hw h.whole,
    hmarker _ hbegin, hmarker _ hend, Bool.false_or, Bool.or_false]

theorem classDeclarations_front : classDeclarations l.front = [] := by
  have hpreamble : ∀ line ∈ l.preamble, '\n' ∉ line ∧ declaredName? line = none :=
    forall_mem_preamble ⟨by decide, rfl⟩ ⟨newline_notMem_basesLine h.bases, rfl⟩
  have hnamespaces : ∀ line ∈ l.namespaces.map namespaceLine,
      '\n' ∉ line ∧ declaredName? line = none := by
    refine List.forall_mem_map.2 fun n hn => ⟨?_, rfl⟩
    exact notMem_of_isLayoutChar (isLayoutChar_opening (by decide) (h.namespaces n hn)) (by decide)
  rw [front, ← joinLines_append]
  exact classDeclarations_joinLines_eq_nil (List.forall_mem_append.2 ⟨hpreamble, hnamespaces⟩)

theorem classDeclarations_region : classDeclarations l.region = [] := by
  refine classDeclarations_eq_nil ?_
  rw [containsWord_region h (by decide) (by decide +kernel) (by decide +kernel)]
  exact h.noClass

theorem classDeclarations_closing : classDeclarations l.closing = [] := by
  rw [closing_eq]
  refine classDeclarations_joinLines_eq_nil
    (forall_mem_closing ⟨by decide +kernel, rfl⟩ (fun e he => ⟨?_, rfl⟩) (by decide) (by decide))
  exact notMem_of_isLayoutChar (EnumLayout.isLayoutChar_line (h.enums e he)) (by decide)

theorem classDeclarations_text :
    classDeclarations l.text = [⟨String.ofList l.className, byteLength l.front⟩] := by
  have hnewline : '\n' ∉ classLine l.className :=
    notMem_of_isLayoutChar (isLayoutChar_opening (by decide) h.className) (by decide)
  have hbehind : classDeclarations (l.region ++ l.closing) = [] := by
    rw [classDeclarations_append (.inl (endsLine_region h)), classDeclarations_region h,
      classDeclarations_closing h]
    rfl
  rw [text, classDeclarations_append (.inl (endsLine_front l)), classDeclarations_front h,
    joinLines_singleton, List.append_assoc, List.singleton_append, classDeclarations_append_newline,
    classDeclarations_line hnewline, declaredName?_classLine h.className, hbehind]
  simp only [Option.map_some, Option.toList_some, List.map_nil, List.append_nil, List.nil_append,
    List.map_singleton, ClassDeclaration.shift, Nat.add_zero]

/-! ## Namespaces -/

theorem containsWord_preamble : containsWord "namespace".toList (joinLines l.preamble) = false :=
  containsWord_joinLines_eq_false (by decide)
    (forall_mem_preamble (by decide +kernel) (containsWord_basesLine h.bases))

theorem containsWord_closing : containsWord "namespace".toList l.closing = false := by
  rw [closing_eq]
  exact containsWord_joinLines_eq_false (by decide) (forall_mem_closing (by decide +kernel)
    (fun e he => EnumLayout.containsWord_line (h.enums e he)) (by decide) (by decide))

theorem namespaceOpenings_text : namespaceOpenings l.text = l.namespaces := by
  have hnamespace : IsIdentifier "namespace".toList := by decide
  have hclass : containsWord "namespace".toList (joinLines [classLine l.className]) = false :=
    containsWord_joinLines_eq_false hnamespace
      (List.forall_mem_singleton.2 (containsWord_classLine h.className))
  have hregion : containsWord "namespace".toList l.region = false := by
    rw [containsWord_region h hnamespace (by decide +kernel) (by decide +kernel)]
    exact h.noNamespace
  have hbehind : containsWord "namespace".toList
      (joinLines [classLine l.className] ++ (l.region ++ l.closing)) = false := by
    rw [containsWord_append hnamespace (endsLine_joinLines _),
      containsWord_append hnamespace (endsLine_region h), hclass, hregion, containsWord_closing h]
    rfl
  have hends : EndsLine (joinLines [classLine l.className] ++ (l.region ++ l.closing)) :=
    (endsLine_joinLines _).append ((endsLine_region h).append (endsLine_closing l))
  rw [text, front, List.append_assoc, namespaceOpenings_append_of_endsLine (endsLine_joinLines _),
    openingsBefore_eq_nil (endsLine_joinLines _) (containsWord_preamble h),
    namespaceOpenings_namespaceLines h.namespaces, namespaceOpenings_eq_nil hends hbehind,
    List.append_nil, List.nil_append]

end

end Layout

end Header

end ChaiBind
