import ChaiBind.Proofs.Header.ClassRegions
import ChaiBind.Proofs.Header.Comments
import ChaiBind.Proofs.Header.NamespaceGrammar
import ChaiBind.Proofs.Text.CodeBraces
import ChaiBind.Proofs.Text.Trivia

/-!
# Namespaces around a class

The namespace of a class joins all openings of its header (`namespaceSites`), and what is joined tells
whether some are left out (`scopeOf_filter_eq_iff`). So it is the namespace that the declaration of
the class stands in exactly if every opening begins a block around it (`scope_recognize_iff`), and not
where a namespace is closed before the class or opened behind it.

* `mem_namespaceSites_iff`: what an opening is.
* `isOpenAt_iff`: the places at which the brace of an opening is open are those of its block.
-/

namespace ChaiBind.Header

open Text

/-! ## Openings and their places -/

/-- An opening of a named namespace in a text. -/
structure NamespaceSite where
  chain : List Char
  /-- The offset of the word. -/
  start : Nat
  /-- The offset behind the brace. -/
  stop : Nat
deriving DecidableEq, Repr

/-- The namespace that is opened at a position. -/
def namespaceSite? (p : Cursor) : Option NamespaceSite :=
  (namespaceOpening? p).map fun chain =>
    ⟨chain, p.offset, p.offset + byteLength (p.rest.takeWhile (· ≠ '{')) + 1⟩

/-- The openings of a text, in order. -/
def namespaceSites (cs : List Char) : List NamespaceSite := (cursors cs).filterMap namespaceSite?

theorem map_chain_namespaceSites (cs : List Char) :
    (namespaceSites cs).map (·.chain) = namespaceOpenings cs := by
  rw [namespaceSites, List.map_filterMap, namespaceOpenings]
  refine List.filterMap_congr fun p _ => ?_
  rw [namespaceSite?, Option.map_map]
  exact Option.map_id'

/-- The opening is the second of three parts of a text. -/
structure NamespaceSite.IsAt (o : NamespaceSite) (before text : List Char) : Prop where
  isOpening : IsOpening text o.chain
  word : before.getLast?.any isWord = false
  start_eq : o.start = byteLength before
  stop_eq : o.stop = byteLength (before ++ text)

theorem byteLength_takeWhile_opening {text chain : List Char} (h : IsOpening text chain)
    (behind : List Char) :
    byteLength ((text ++ behind).takeWhile (· ≠ '{')) + 1 = byteLength text := by
  obtain ⟨head, rfl, -, hnone⟩ := h.exists_append
  have hall : ∀ c ∈ head, decide (c ≠ '{') = true := fun c hc =>
    decide_eq_true fun e => hnone '{' (by decide) (e ▸ hc)
  have hsize : byteLength ['{'] = 1 := rfl
  rw [List.append_assoc, List.takeWhile_append_of_pos hall, byteLength_append, byteLength_append,
    hsize]
  rfl

/-- The openings of a text are those that its places allow. -/
theorem mem_namespaceSites_iff {cs : List Char} {o : NamespaceSite} :
    o ∈ namespaceSites cs ↔ ∃ before text behind, cs = before ++ text ++ behind ∧
      o.IsAt before text := by
  rw [namespaceSites, List.mem_filterMap]
  constructor
  · rintro ⟨p, hp, ho⟩
    obtain ⟨before, hcs, hbefore, hoffset⟩ := mem_cursorsFrom_iff.1 hp
    obtain ⟨chain, hchain, rfl⟩ := Option.map_eq_some_iff.1 ho
    obtain ⟨hword, text, behind, hopening, hrest⟩ := namespaceOpening?_eq_some_iff.1 hchain
    rw [Option.or_none] at hbefore
    rw [Nat.zero_add] at hoffset
    refine ⟨before, text, behind, by rw [hcs, hrest, List.append_assoc], hopening, ?_, hoffset, ?_⟩
    · rw [← hbefore, hword]
    · show p.offset + byteLength (p.rest.takeWhile (· ≠ '{')) + 1 = _
      rw [hrest, Nat.add_assoc, byteLength_takeWhile_opening hopening, hoffset, byteLength_append]
  · rintro ⟨before, text, behind, rfl, ho⟩
    refine ⟨⟨before.getLast?, byteLength before, text ++ behind⟩,
      mem_cursorsFrom_iff.2 ⟨before, List.append_assoc .., (Option.or_none ..).symm,
        (Nat.zero_add _).symm⟩, ?_⟩
    have hchain : namespaceOpening? ⟨before.getLast?, byteLength before, text ++ behind⟩ =
        some o.chain := namespaceOpening?_eq_some_iff.2 ⟨ho.word, text, behind, ho.isOpening, rfl⟩
    rw [namespaceSite?, hchain, Option.map_some, Nat.add_assoc,
      byteLength_takeWhile_opening ho.isOpening, ← byteLength_append, ← ho.start_eq, ← ho.stop_eq]

theorem pairwise_namespaceSites (cs : List Char) :
    (namespaceSites cs).Pairwise (·.start < ·.start) := by
  have hend : ∀ before offset, namespaceSite? ⟨before, offset, []⟩ = none := by
    intro before offset
    rw [namespaceSite?, namespaceOpening?_eq]
    cases before.any isWord <;> rfl
  rw [namespaceSites, cursors, cursorsFrom_eq, List.filterMap_append, List.filterMap_cons, hend,
    List.filterMap_nil, List.append_nil, List.pairwise_filterMap]
  refine (Marker.pairwise_startsFrom none 0 cs).imp fun hlt o ho o' ho' => ?_
  obtain ⟨-, -, rfl⟩ := Option.map_eq_some_iff.1 ho
  obtain ⟨-, -, rfl⟩ := Option.map_eq_some_iff.1 ho'
  exact hlt

/-! ## Joined openings -/

/-- The chains of some openings with `::` between them; `none` if there are no openings. -/
def scopeOf (sites : List NamespaceSite) : Option String :=
  match sites.map (·.chain) with
  | [] => none
  | chains => some (String.ofList ("::".toList.intercalate chains))

theorem namespaceOf_eq (cs : List Char) : namespaceOf cs = scopeOf (namespaceSites cs) := by
  rw [scopeOf, map_chain_namespaceSites]
  rfl

theorem length_intercalate_add {sep : List Char} {ws : List (List Char)} (hne : ws ≠ []) :
    (sep.intercalate ws).length + sep.length = sumLines (fun w => w.length + sep.length) ws := by
  induction ws with
  | nil => exact absurd rfl hne
  | cons w ws ih =>
    cases ws with
    | nil =>
      rw [List.intercalate_singleton]
      rfl
    | cons w' ws =>
      rw [List.intercalate_cons_cons, List.length_append, List.length_append, Nat.add_assoc,
        ih (List.cons_ne_nil w' ws)]
      rfl

theorem sumLines_le {f : List Char → Nat} {xs ys : List (List Char)} (h : xs.Sublist ys) :
    sumLines f xs ≤ sumLines f ys := by
  induction h with
  | slnil => exact Nat.le_refl 0
  | cons y _ ih => exact Nat.le_trans ih (Nat.le_add_left _ (f y))
  | cons_cons y _ ih => exact Nat.add_le_add_left ih (f y)

theorem eq_of_sumLines_eq {f : List Char → Nat} (hf : ∀ w, 0 < f w) {xs ys : List (List Char)}
    (h : xs.Sublist ys) (hsum : sumLines f xs = sumLines f ys) : xs = ys := by
  induction h with
  | slnil => rfl
  | cons y h _ =>
    have hle := sumLines_le (f := f) h
    have hpos := hf y
    rw [sumLines] at hsum
    omega
  | cons_cons y _ ih => rw [ih (Nat.add_left_cancel hsum)]

/-- To leave openings out changes what is joined. -/
theorem scopeOf_filter_eq_iff {sites : List NamespaceSite} {p : NamespaceSite → Bool} :
    scopeOf sites = scopeOf (sites.filter p) ↔ ∀ o ∈ sites, p o := by
  refine ⟨fun h => ?_, fun h => by rw [List.filter_eq_self.2 h]⟩
  have hscope : ∀ {sites : List NamespaceSite}, sites ≠ [] → scopeOf sites =
      some (String.ofList ("::".toList.intercalate (sites.map (·.chain)))) := by
    intro sites hne
    cases sites with
    | nil => exact absurd rfl hne
    | cons o sites => rfl
  by_cases hsites : sites = []
  · rw [hsites]
    nofun
  · by_cases hfilter : sites.filter p = []
    · rw [hscope hsites, hfilter] at h
      cases h
    · rw [hscope hsites, hscope hfilter, Option.some.injEq, String.ofList_inj] at h
      -- every opening adds to the length of what is joined
      have hlength := congrArg (fun ds => ds.length + "::".toList.length) h
      simp only [length_intercalate_add (mt List.map_eq_nil_iff.1 hsites),
        length_intercalate_add (mt List.map_eq_nil_iff.1 hfilter)] at hlength
      have hchains := eq_of_sumLines_eq (fun _ => Nat.add_pos_right _ (by decide))
        (List.filter_sublist.map _) hlength.symm
      have hcount := congrArg List.length hchains
      rw [List.length_map, List.length_map] at hcount
      exact List.length_filter_eq_length_iff.1 hcount

/-! ## Blocks of namespaces -/

/-- The opening begins a block: its word is code, and what stands in the block has braces that match
and is followed by the brace that closes it. -/
structure NamespaceSite.IsBlock (o : NamespaceSite) (before text inner : List Char) : Prop where
  isAt : o.IsAt before text
  code : ∃ afterWord, Scan.start.after before (some 'n') = .code afterWord
  matched : Balanced (braces inner)
  closed : ∃ afterWord, Scan.start.after inner (some '}') = .code afterWord

/-- The opening begins a block in which a place of the text is. -/
def NamespaceSite.Encloses (cs : List Char) (offset : Nat) (o : NamespaceSite) : Prop :=
  ∃ before text inner behind, cs = before ++ text ++ inner ++ '}' :: behind ∧
    o.IsBlock before text inner ∧ o.stop ≤ offset ∧ offset ≤ byteLength (before ++ text ++ inner)

/-- Whether the brace of the opening is still open at a place of the text behind it. -/
def NamespaceSite.isOpenAt (cs : List Char) (offset : Nat) (o : NamespaceSite) : Bool :=
  (Scan.start.after (takeBytes o.start cs) (some 'n')).isCode && o.stop ≤ offset &&
    (openBraces? 0 (braces (slice cs o.stop offset))).isSome

/-- An opening in code has one brace, behind which code starts anew. -/
theorem braces_opening {before text chain : List Char} (h : IsOpening text chain)
    (hcode : ∃ afterWord, Scan.start.after before (some 'n') = .code afterWord) (v : List Char) :
    braces (before ++ (text ++ v)) = braces before ++ '{' :: braces v := by
  obtain ⟨head, rfl, hhead, hnone⟩ := h.exists_append
  obtain ⟨afterWord, hcode⟩ := hcode
  have hplain : IsPlainCode afterWord head :=
    isPlainCode_of_notMem ⟨hnone '"' (by decide), hnone '\'' (by decide)⟩ (hnone '/' (by decide)) _
  have hnobrace : bracesFrom (.code afterWord) head = [] :=
    bracesFrom_eq_nil ⟨hnone '{' (by decide), hnone '}' (by decide)⟩ _
  have hopens : ¬ Scan.Opens (some '{') := by simp [Scan.Opens]
  obtain ⟨⟨afterWord', hafter⟩, -⟩ := after_plain hplain fun _ => hopens
  have hnext : (head ++ ['{'] ++ v).head? = some 'n' := by
    rw [List.append_assoc, List.head?_append, hhead, Option.some_or]
  rw [braces, bracesFrom_append, hnext, hcode, List.append_assoc, List.singleton_append,
    bracesFrom_append, hnobrace, List.nil_append, List.head?_cons, hafter]
  rfl

section

variable {cs : List Char} {offset : Nat} {o : NamespaceSite}

/-- In a text whose braces match, an opening whose word is code begins a block. -/
theorem exists_isBlock {before text behind : List Char}
    (h : Balanced (braces (before ++ (text ++ behind)))) (ho : o.IsAt before text)
    (hcode : ∃ afterWord, Scan.start.after before (some 'n') = .code afterWord) :
    ∃ inner behind', behind = inner ++ '}' :: behind' ∧ o.IsBlock before text inner := by
  have hopen := balanced_braces_iff.1 h
  rw [braces_opening ho.isOpening hcode, openBraces?_append] at hopen
  obtain ⟨d, -, hopen⟩ := Option.bind_eq_some_iff.1 hopen
  obtain ⟨inner, behind', hbehind, hmatched, hclosed⟩ := exists_block hopen (Nat.zero_le d)
  exact ⟨inner, behind', hbehind, ho, hcode, hmatched, hclosed⟩

/-- The brace of an opening in code is open at the end of a text if no brace behind it closes it. -/
theorem isOpenAt_of_split {before text a v : List Char} (hcs : cs = before ++ text ++ a ++ v)
    (ho : o.IsAt before text) :
    o.isOpenAt cs (byteLength (before ++ text ++ a)) ↔
      (∃ afterWord, Scan.start.after before (some 'n') = .code afterWord) ∧
        (openBraces? 0 (braces a)).isSome := by
  have hstop : byteLength (before ++ text) ≤ byteLength (before ++ text ++ a) := by
    rw [byteLength_append _ a]
    exact Nat.le_add_right _ _
  have hbefore : takeBytes (byteLength before) cs = before := by
    rw [hcs, List.append_assoc, List.append_assoc, takeBytes_byteLength]
  have hbehind : slice cs (byteLength (before ++ text)) (byteLength (before ++ text ++ a)) = a := by
    rw [hcs, List.append_assoc _ a, slice_between]
  rw [NamespaceSite.isOpenAt, ho.start_eq, ho.stop_eq, hbefore, hbehind, decide_eq_true hstop,
    Bool.and_true, Bool.and_eq_true, Scan.isCode_iff]

/-- Where braces match, the brace of an opening is open at exactly the places of its block. -/
theorem isOpenAt_iff (h : Balanced (braces cs)) (ho : o ∈ namespaceSites cs)
    (hoffset : IsBoundary cs offset) : o.isOpenAt cs offset ↔ o.Encloses cs offset := by
  obtain ⟨u, v, hu, rfl⟩ := hoffset
  constructor
  · intro hopen
    obtain ⟨before, text, behind, hcs, hat⟩ := mem_namespaceSites_iff.1 ho
    have hstop : o.stop ≤ byteLength u := by
      simp only [NamespaceSite.isOpenAt, Bool.and_eq_true, decide_eq_true_eq] at hopen
      exact hopen.1.2
    have hover := hcs.symm.trans hu
    obtain ⟨a, rfl⟩ := isPrefix_of_byteLength_le (hat.stop_eq ▸ hstop) hover
    obtain ⟨hcode, hopen⟩ := (isOpenAt_of_split hu hat).1 hopen
    rw [hcs, List.append_assoc] at h
    obtain ⟨inner, behind, rfl, hblock⟩ := exists_isBlock h hat hcode
    rw [hcs, List.append_assoc _ a, List.append_cancel_left_eq] at hu
    obtain ⟨b, rfl⟩ := (isSome_openBraces?_iff hblock.matched hblock.closed hu).1 hopen
    refine ⟨before, text, a ++ b, behind, hcs.trans (List.append_assoc ..).symm, hblock, hstop, ?_⟩
    rw [← List.append_assoc _ a, byteLength_append _ b]
    exact Nat.le_add_right _ _
  · rintro ⟨before, text, inner, behind, hcs, hblock, hstop, hle⟩
    have hat := hblock.isAt
    have hover := hcs.symm.trans hu
    rw [List.append_assoc _ inner] at hover
    obtain ⟨a, rfl⟩ := isPrefix_of_byteLength_le (hat.stop_eq ▸ hstop) hover
    refine (isOpenAt_of_split hu hat).2 ⟨hblock.code, ?_⟩
    rw [List.append_assoc _ a, List.append_cancel_left_eq] at hover
    refine (isSome_openBraces?_iff hblock.matched hblock.closed hover).2 ?_
    rw [byteLength_append _ a, byteLength_append _ inner] at hle
    exact isPrefix_of_byteLength_le (Nat.le_of_add_le_add_left hle) hover.symm

end

/-! ## The namespace of a class -/

/-- Class declarations start lines, and so no character of a text is parted by one. -/
theorem isBoundary_of_mem_classDeclarations {cs : List Char} {d : ClassDeclaration}
    (h : d ∈ classDeclarations cs) : IsBoundary cs d.offset := by
  have hline : ∀ {line rest : List Char} {d}, '\n' ∉ line → d ∈ classDeclarations line →
      IsBoundary (line ++ rest) d.offset := by
    intro line rest d hline hd
    rw [classDeclarations_line hline, Option.mem_toList] at hd
    obtain ⟨name, -, rfl⟩ := Option.map_eq_some_iff.1 hd
    exact ⟨[], line ++ rest, rfl, rfl⟩
  induction hn : cs.length using Nat.strongRecOn generalizing cs d with
  | ind n ih =>
    by_cases hnewline : '\n' ∈ cs
    · obtain ⟨line, rest, rfl, hnone⟩ := List.eq_append_cons_of_mem hnewline
      rw [classDeclarations_append_newline, List.mem_append] at h
      rcases h with h | h
      · exact hline hnone h
      · obtain ⟨e, he, rfl⟩ := List.mem_map.1 h
        rw [List.length_append, List.length_cons] at hn
        obtain ⟨u, v, rfl, hu⟩ := ih rest.length (by omega) he rfl
        refine ⟨line ++ '\n' :: u, v, by rw [List.append_assoc, List.cons_append], ?_⟩
        have hsize : '\n'.utf8Size = 1 := rfl
        rw [byteLength_append, byteLength_cons, hsize, hu, ← Nat.add_assoc]
        rfl
    · rw [← List.append_nil cs]
      exact hline hnewline h

/-- The namespace of a class is what all openings of its header name, in order. Where braces match, it
is what those name whose braces are open at the declaration of the class exactly if all are open. -/
theorem scope_recognize_iff {path includePath : String} {cs : List Char} {k : ScriptClass}
    (h : Balanced (braces cs))
    (hk : (recognize ⟨path, includePath, String.ofList cs⟩).class? = some k) :
    ∃ first owner, Marker.regionBegin.IsFirst cs first ∧
      IsNearest (classDeclarations cs) first.start owner ∧ k.name = owner.name ∧
      k.scope = scopeOf (namespaceSites cs) ∧
      (namespaceSites cs).Pairwise (·.start < ·.start) ∧
      (∀ o, o ∈ namespaceSites cs ↔
        ∃ before text behind, cs = before ++ text ++ behind ∧ o.IsAt before text) ∧
      (k.scope = scopeOf ((namespaceSites cs).filter (·.isOpenAt cs owner.offset)) ↔
        ∀ o ∈ namespaceSites cs, o.Encloses cs owner.offset) := by
  obtain ⟨r, hr, hname, hscope⟩ := exists_region_of_class? hk
  obtain ⟨first, last, owner, hregion⟩ := regionOf_eq_some_iff.1 hr
  have hboundary := isBoundary_of_mem_classDeclarations hregion.owned.mem
  rw [namespaceOf_eq] at hscope
  refine ⟨first, owner, hregion.begins, hregion.owned, hname.trans hregion.className, hscope,
    pairwise_namespaceSites cs, fun o => mem_namespaceSites_iff, ?_⟩
  rw [hscope, scopeOf_filter_eq_iff]
  exact forall₂_congr fun o ho => isOpenAt_iff h ho hboundary

/-- A class in two namespaces, with a block before it that is closed. -/
theorem sprite_enclosed :
    let cs := ("namespace Game \x7b\nenum Mode \x7b ON \x7d; // \x7b\nnamespace UI::Menu\n\x7b\n" ++
      "class Sprite \x7b\n//= BEGIN SCRIPTABLE\n//= END SCRIPTABLE\n\x7d;\n\x7d\n\x7d\n").toList
    Balanced (braces cs) ∧
      (recognize ⟨"a.h", "a.h", String.ofList cs⟩).class?.map (·.scope) =
        some (some "Game::UI::Menu") ∧
      classDeclarations cs = [⟨"Sprite", 61⟩] ∧
      ∀ o ∈ namespaceSites cs, o.Encloses cs 61 := by
  intro cs
  have hbraces : Balanced (braces cs) := balanced_braces_iff.2 (by decide +kernel)
  have hclass : (recognize ⟨"a.h", "a.h", String.ofList cs⟩).class?.map (·.scope) =
      some (some "Game::UI::Menu") := by decide +kernel
  have hdecls : classDeclarations cs = [⟨"Sprite", 61⟩] := by decide +kernel
  obtain ⟨k, hk, hscope⟩ := Option.map_eq_some_iff.1 hclass
  obtain ⟨first, owner, -, howner, -, -, -, -, hiff⟩ := scope_recognize_iff hbraces hk
  have hopen : scopeOf ((namespaceSites cs).filter (·.isOpenAt cs 61)) = some "Game::UI::Menu" := by
    decide +kernel
  obtain rfl : owner = ⟨"Sprite", 61⟩ := List.mem_singleton.1 (hdecls ▸ howner.mem)
  exact ⟨hbraces, hclass, hdecls, hiff.1 (hscope.trans hopen.symm)⟩

/-- A namespace that is closed before a class is joined with the one around it. -/
theorem foo_notEnclosed :
    let cs := ("namespace A \x7b\nclass Bar;\n\x7d\nnamespace B \x7b\nclass Foo \x7b\n" ++
      "//= BEGIN SCRIPTABLE\n//= END SCRIPTABLE\n\x7d;\n\x7d\n").toList
    Balanced (braces cs) ∧ classDeclarations cs = [⟨"Foo", 41⟩] ∧
      scopeOf ((namespaceSites cs).filter (·.isOpenAt cs 41)) = some "B" ∧
      (recognize ⟨"a.h", "a.h", String.ofList cs⟩).class?.map (·.scope) = some (some "A::B") := by
  intro cs
  exact ⟨balanced_braces_iff.2 (by decide +kernel), by decide +kernel, by decide +kernel,
    by decide +kernel⟩

end ChaiBind.Header
