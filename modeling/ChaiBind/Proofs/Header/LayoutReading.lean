import ChaiBind.Proofs.Header.LayoutParts

/-!
# A header as documented is read back

The region of a layout is found between its markers, under the class of the layout, and
each enumeration behind its marker, with the class before its name. All that a header
written as documented declares is then what it was written from (`recognize_text`).

* `regionOf_text`: the region, with nothing wrong about its markers.
* `readEnumeration?_line`: an enumeration, whatever follows its line.
* `map_readEnumeration?_sites`: the enumerations behind their markers, line after line.
-/

namespace ChaiBind

open Text

namespace Header

/-! ## The region -/

/-- A header with one region in a class. -/
theorem regionOf_of_sites {cs : List Char} {first last : Marker.Site} {owner : ClassDeclaration}
    (hbegin : Marker.regionBegin.sites cs = [first]) (hend : Marker.regionEnd.sites cs = [last])
    (hle : first.stop ≤ last.start)
    (howner : owningClass? (classDeclarations cs) first.start = some owner) :
    regionOf cs = (some ⟨owner.name, slice cs first.stop last.start, first.stop⟩, []) := by
  have hfirst : first ∈ Marker.regionBegin.sites cs := by
    rw [hbegin]
    exact List.mem_singleton_self first
  have horder := (Marker.start_le_stop_of_mem_sites hfirst).1
  have hearly : ¬ last.start < first.start := by omega
  have hlast : (Marker.regionEnd.sites cs).find? (first.stop ≤ ·.start) = some last := by
    rw [hend]
    exact List.find?_cons_of_pos (decide_eq_true hle)
  rw [regionOf_of_owner hbegin hlast howner, hend, List.filter_cons_of_neg (by simpa using hearly)]
  rfl

namespace Layout

section

variable {l : Layout} (h : l.WellFormed)
include h

theorem sites_regionBegin :
    Marker.regionBegin.sites l.region =
      [⟨0, byteLength Marker.regionBegin.text, '\n' :: (l.body ++ joinLines [Marker.regionEnd.text])⟩] := by
  have hbehind : Marker.regionBegin.sites (l.body ++ joinLines [Marker.regionEnd.text]) = [] :=
    Marker.sites_append_eq_nil h.whole (sites_body h _) (sites_markerLine_of_ne (by decide))
  rw [region, Marker.sites_append _ (.inl (endsLine_joinLines _)), hbehind, sites_markerLine,
    if_pos rfl]
  simp only [List.map_singleton, List.map_nil, List.append_nil, Marker.Site.extend,
    List.singleton_append]

theorem sites_regionEnd :
    Marker.regionEnd.sites l.region =
      [⟨byteLength (joinLines [Marker.regionBegin.text] ++ l.body),
        byteLength (joinLines [Marker.regionBegin.text] ++ l.body) + byteLength Marker.regionEnd.text,
        ['\n']⟩] := by
  have hbefore : Marker.regionEnd.sites (joinLines [Marker.regionBegin.text] ++ l.body) = [] :=
    Marker.sites_append_eq_nil (endsLine_joinLines _) (sites_markerLine_of_ne (by decide))
      (sites_body h _)
  rw [region, ← List.append_assoc,
    Marker.sites_append _ (.inl ((endsLine_joinLines _).append h.whole)), hbefore, sites_markerLine,
    if_pos rfl]
  simp only [List.map_singleton, List.map_nil, List.nil_append, Marker.Site.shift, Nat.add_zero]

/-- Behind its line the class owns everything. -/
theorem owningClass?_text {offset : Nat} (hoffset : byteLength l.front < offset) :
    owningClass? (classDeclarations l.text) offset =
      some ⟨String.ofList l.className, byteLength l.front⟩ := by
  rw [classDeclarations_text h, owningClass?, List.reverse_singleton, List.find?_cons_of_pos]
  exact decide_eq_true hoffset

omit h in
theorem byteLength_front_lt : byteLength l.front < l.regionOffset := by
  have hpos : 0 < byteLength (joinLines [classLine l.className]) := byteLength_pos (by simp [joinLines])
  rw [regionOffset, byteLength_append]
  omega

omit h in
theorem bodyOffset_add_byteLength (l : Layout) :
    l.bodyOffset + byteLength ('\n' :: l.body) =
      l.regionOffset + byteLength (joinLines [Marker.regionBegin.text] ++ l.body) := by
  rw [bodyOffset, joinLines_singleton, List.append_assoc, List.singleton_append, byteLength_append,
    Nat.add_assoc]

omit h in
/-- Between the markers stand the end of the line of the first one and the body. -/
theorem slice_text (l : Layout) :
    slice l.text l.bodyOffset (l.bodyOffset + byteLength ('\n' :: l.body)) = '\n' :: l.body := by
  have htext : l.text = (l.front ++ joinLines [classLine l.className] ++ Marker.regionBegin.text) ++
      ('\n' :: l.body ++ (joinLines [Marker.regionEnd.text] ++ l.closing)) := by
    rw [text, region, joinLines_singleton Marker.regionBegin.text]
    simp only [List.append_assoc, List.cons_append, List.nil_append]
  have hoffset : l.bodyOffset =
      byteLength (l.front ++ joinLines [classLine l.className] ++ Marker.regionBegin.text) := by
    rw [bodyOffset, regionOffset, byteLength_append _ Marker.regionBegin.text]
  have hslice := slice_over (l.front ++ joinLines [classLine l.className] ++ Marker.regionBegin.text)
    ('\n' :: l.body) (joinLines [Marker.regionEnd.text] ++ l.closing) 0
  rwa [takeBytes_zero, List.append_nil, Nat.add_zero, ← htext, ← hoffset] at hslice

/-- The region of a layout with nothing wrong about its markers. -/
theorem regionOf_text :
    regionOf l.text = (some ⟨String.ofList l.className, '\n' :: l.body, l.bodyOffset⟩, []) := by
  have hbegin := sites_text_region h (m := .regionBegin) (by decide) (by decide)
  have hend := sites_text_region h (m := .regionEnd) (by decide) (by decide)
  rw [sites_regionBegin h, List.map_singleton] at hbegin
  rw [sites_regionEnd h, List.map_singleton] at hend
  simp only [Marker.Site.extend, Marker.Site.shift, Nat.add_zero, ← bodyOffset_add_byteLength]
    at hbegin hend
  have howner := owningClass?_text h (byteLength_front_lt (l := l))
  rw [regionOf_of_sites hbegin hend (Nat.le_add_right _ _) howner]
  dsimp only
  rw [← bodyOffset, slice_text]

end

end Layout

/-! ## The enumerations -/

/-- A value without its initializer, of which it has none, and without the spaces around it. -/
theorem IsName.trim_beforeAssignment {name : List Char} (h : IsName name) {spaces : List Char}
    (hspaces : ∀ c ∈ spaces, c = ' ') :
    trim (beforeAssignment (' ' :: (name ++ spaces))) = name := by
  have hblank : ∀ c ∈ spaces, isBlank c := fun c hc => hspaces c hc ▸ by decide
  have hplain : ∀ c ∈ ' ' :: (name ++ spaces), Text.isPlain c := by
    rw [List.forall_mem_cons, List.forall_mem_append]
    exact ⟨by decide, h.isPlain, fun c hc => hspaces c hc ▸ by decide⟩
  have hname : ∀ c ∈ name, isBlank c = false := fun c hc =>
    isBlank_eq_false_of_isWord (h.1.isWord_of_mem hc)
  have hstart : trim (' ' :: (name ++ spaces)) = trim (name ++ spaces) := rfl
  rw [beforeAssignment_plain hplain, hstart, trim_append_of_blank hblank]
  exact dropWhile_ends_eq_self hname

/-- The values of a list are the pieces between its commas. -/
theorem map_pieces_intercalate {ws : List (List Char)} (h : ∀ w ∈ ws, IsName w) (hne : ws ≠ []) :
    (pieces (· = ',') (' ' :: (", ".toList.intercalate ws ++ [' ']))).map
      (fun v => trim (beforeAssignment v)) = ws := by
  induction ws with
  | nil => exact absurd rfl hne
  | cons w ws ih =>
    obtain ⟨hw, hws⟩ := List.forall_mem_cons.1 h
    have hcomma : ∀ c ∈ ' ' :: w, decide (c = ',') = false := by
      refine List.forall_mem_cons.2 ⟨by decide, fun c hc => decide_eq_false ?_⟩
      rintro rfl
      cases hw.1.isWord_of_mem hc
    cases ws with
    | nil =>
      have hlast : ∀ c ∈ ' ' :: (w ++ [' ']), decide (c = ',') = false :=
        List.forall_mem_append.2 ⟨hcomma, by decide⟩
      rw [List.intercalate_singleton, pieces_of_forall hlast, List.map_singleton,
        hw.trim_beforeAssignment (by decide)]
    | cons w' ws =>
      have hsplit : ' ' :: (", ".toList.intercalate (w :: w' :: ws) ++ [' ']) =
          (' ' :: w) ++ ',' :: (' ' :: (", ".toList.intercalate (w' :: ws) ++ [' '])) := by
        rw [List.intercalate_cons_cons, List.append_assoc, List.append_assoc]
        rfl
      have hvalue : trim (beforeAssignment (' ' :: (w ++ []))) = w := hw.trim_beforeAssignment nofun
      rw [List.append_nil] at hvalue
      rw [hsplit, pieces_append_cons hcomma (by decide), List.map_cons, hvalue,
        ih hws (List.cons_ne_nil _ _)]

namespace EnumLayout

variable {e : EnumLayout} (h : e.WellFormed)
include h

theorem enumerators_body : enumerators e.body = e.values.map String.ofList := by
  rw [enumerators, stripComments_plain (isPlain_body h), splitTopLevel_plain (isPlain_body h), body]
  by_cases hne : e.values = []
  · rw [hne]
    decide
  · have hfilter : e.values.filter (· ≠ []) = e.values :=
      List.filter_eq_self.2 fun v hv => decide_eq_true (h.values v hv).ne_nil
    rw [map_pieces_intercalate h.values hne, hfilter]

theorem takeIdentifier_name :
    takeIdentifier (trimStart (' ' :: (e.name ++ e.rest))) = some (e.name, e.rest) := by
  have htrim : trimStart (' ' :: (e.name ++ e.rest)) = e.name ++ e.rest :=
    dropWhile_eq_self (any_head?_identifier h.name.1 (fun c hc => isBlank_eq_false_of_isWord hc) _)
  rw [htrim, takeIdentifier_append h.name.1 rfl]

/-- The name is no keyword, since the body follows it. -/
theorem afterScopeKeyword?_name :
    (afterScopeKeyword? (' ' :: (e.name ++ e.rest))).bind enumName? = none := by
  have hbody : enumName? e.rest = none := enumName?_of_startsBody (.inr rfl)
  have hspace : (' ' :: (e.name ++ e.rest)).head?.any isBlank := rfl
  rw [afterScopeKeyword?_eq, if_pos hspace, takeIdentifier_name h, Option.bind_some]
  split
  · exact hbody
  · rfl

theorem enumHead?_line : enumHead? e.line = some ⟨e.isScoped, e.name, trimStart e.rest⟩ := by
  have hname : enumName? (' ' :: (e.name ++ e.rest)) = some (e.name, trimStart e.rest) :=
    enumName?_of_takeIdentifier (takeIdentifier_name h)
  have hword : afterWord? "enum".toList e.line = some (' ' :: (e.keyword ++ (e.name ++ e.rest))) := rfl
  rw [enumHead?, hword, Option.bind_some, keyword]
  cases e.isScoped with
  | true =>
    have hkeyword : afterScopeKeyword? (' ' :: ("class ".toList ++ (e.name ++ e.rest))) =
        some (' ' :: (e.name ++ e.rest)) := rfl
    rw [if_pos rfl, hkeyword, Option.bind_some, hname]
  | false =>
    rw [if_neg Bool.false_ne_true, List.nil_append, afterScopeKeyword?_name h, hname]
    rfl

theorem enumDeclaration?_line : enumDeclaration? e.line = some ⟨e.isScoped, e.name, e.body⟩ := by
  have hclosed : closedBody? (e.body ++ "\x7d;".toList) = some e.body := by
    refine closedBody?_eq_some_iff.2 ⟨[';'], rfl, ?_, rfl⟩
    exact fun hmem => ne_of_isPlain (isPlain_body h _ hmem) (by decide) rfl
  have hbody : enumBody? (trimStart e.rest) = some e.body := hclosed
  rw [enumDeclaration?_eq, enumHead?_line h, Option.bind_some, hbody]
  rfl

/-- An enumeration is read on the line behind its marker, whatever follows. -/
theorem readEnumeration?_line (v : List Char) :
    readEnumeration? ('\n' :: (e.line ++ v)) = some e.contents := by
  have hskip : skipTrivia ('\n' :: (e.line ++ v)) = e.line ++ v := rfl
  rw [readEnumeration?, hskip, enumDeclaration?_append_of_some (enumDeclaration?_line h),
    Option.map_some, enumerators_body h, contents]

end EnumLayout

/-- Each enumeration is read behind its marker, line after line. -/
theorem map_readEnumeration?_sites {enums : List EnumLayout} (h : ∀ e ∈ enums, e.WellFormed)
    {v : List Char} (hv : Marker.enumeration.sites v = []) :
    (Marker.enumeration.sites (joinLines (enums.flatMap EnumLayout.lines) ++ v)).map
      (fun s => readEnumeration? s.rest) = enums.map fun e => some e.contents := by
  induction enums with
  | nil =>
    show (Marker.enumeration.sites v).map _ = []
    rw [hv]
    rfl
  | cons e enums ih =>
    obtain ⟨he, henums⟩ := List.forall_mem_cons.1 h
    have htext : joinLines ((e :: enums).flatMap EnumLayout.lines) ++ v =
        joinLines [Marker.enumeration.text] ++
          (joinLines [e.line] ++ (joinLines (enums.flatMap EnumLayout.lines) ++ v)) := by
      show joinLines (Marker.enumeration.text :: e.line :: enums.flatMap EnumLayout.lines) ++ v = _
      rw [joinLines_cons, joinLines_cons, joinLines_singleton, joinLines_singleton]
      simp only [List.append_assoc, List.cons_append, List.nil_append]
    have hline : Marker.enumeration.sites (joinLines [e.line]) = [] :=
      sites_joinLines_eq_nil (List.forall_mem_singleton.2
        (sites_of_isLayoutChar (EnumLayout.isLayoutChar_line he)))
    have hread : readEnumeration? (['\n'] ++
        (joinLines [e.line] ++ (joinLines (enums.flatMap EnumLayout.lines) ++ v))) =
          some e.contents := by
      rw [joinLines_singleton, List.append_assoc]
      exact EnumLayout.readEnumeration?_line he _
    rw [htext, Marker.sites_append _ (.inl (endsLine_joinLines _)), sites_markerLine, if_pos rfl,
      Marker.sites_append _ (.inl (endsLine_joinLines _)), hline, List.map_append, List.map_singleton,
      List.map_singleton, List.map_nil, List.nil_append, List.map_map, List.map_map, List.map_cons]
    exact congrArg₂ List.cons hread (ih henums)

namespace Layout

section

variable {l : Layout} (h : l.WellFormed)
include h

theorem namespaceOf_text : namespaceOf l.text = l.scope := by
  rw [namespaceOf, namespaceOpenings_text h, scope]
  cases l.namespaces <;> rfl

theorem map_readEnumeration?_text :
    (Marker.enumeration.sites l.text).map (fun s => readEnumeration? s.rest) =
      l.enums.map fun e => some e.contents := by
  rw [sites_text_enumeration h, List.map_map]
  exact map_readEnumeration?_sites h.enums (sites_closers l _)

/-- The class of a layout owns its enumerations. -/
theorem ownerName_text {s : Marker.Site} (hs : s ∈ Marker.enumeration.sites l.text) :
    ownerName l.text s.start = some (String.ofList l.className) := by
  rw [sites_text_enumeration h] at hs
  obtain ⟨s', -, rfl⟩ := List.mem_map.1 hs
  have hoffset : byteLength l.front < (s'.shift
      (byteLength (l.front ++ (joinLines [classLine l.className] ++ l.region)))).start := by
    have hlt := byteLength_front_lt (l := l)
    rw [regionOffset, byteLength_append] at hlt
    show _ < byteLength (l.front ++ (joinLines [classLine l.className] ++ l.region)) + s'.start
    rw [byteLength_append, byteLength_append]
    omega
  rw [ownerName, owningClass?_text h hoffset]
  rfl

/-- The enumerations of a layout with nothing missing at their markers. -/
theorem enumerationsOf_text (path includePath : String) (scope : Option String) :
    enumerationsOf ⟨path, includePath, String.ofList l.text⟩ scope =
      (l.enums.map fun e =>
        enumerationIn path includePath scope (some (String.ofList l.className)) e.contents, []) := by
  have hread := map_readEnumeration?_text h
  refine Prod.ext ?_ ?_
  · rw [fst_enumerationsOf]
    have howned : ∀ s ∈ Marker.enumeration.sites l.text,
        (readEnumeration? s.rest).map (enumerationIn path includePath scope (ownerName l.text s.start)) =
          (readEnumeration? s.rest).map
            (enumerationIn path includePath scope (some (String.ofList l.className))) := by
      intro s hs
      rw [ownerName_text h hs]
    have hfound := congrArg (List.filterMap (Option.map
      (enumerationIn path includePath scope (some (String.ofList l.className))))) hread
    rw [List.filterMap_map, List.filterMap_map] at hfound
    rw [List.filterMap_congr howned]
    exact hfound.trans (congrFun List.filterMap_eq_map l.enums)
  · rw [enumerationsOf]
    dsimp only
    rw [List.filterMap_map, List.filterMap_eq_nil_iff, String.toList_ofList]
    intro s hs
    have hmem := List.mem_map_of_mem (f := fun s => readEnumeration? s.rest) hs
    rw [hread] at hmem
    obtain ⟨e, -, he⟩ := List.mem_map.1 hmem
    obtain ⟨d, hd, -⟩ := Option.map_eq_some_iff.1 he.symm
    simp only [Function.comp_apply, enumerationAt, hd]

end

end Layout

/-- A header that is written as documented is read back: its namespaces, its class with the bases
and with the text between the markers, and its enumerations, each with the class before its name.
Only the members in the region can be reported. -/
theorem recognize_text {l : Layout} (h : l.WellFormed) (path includePath : String) :
    recognize ⟨path, includePath, String.ofList l.text⟩ =
      { scope := l.scope
        class? := some
          { name := String.ofList l.className
            scope := l.scope
            includePath
            path
            body := String.ofList ('\n' :: l.body)
            bases := l.bases.map String.ofList
            ancestors := []
            methods := l.members.1 }
        enums := l.enums.map fun e =>
          { name := qualify (some (String.ofList l.className)) (String.ofList e.name)
            scope := l.scope
            includePath
            path
            isScoped := e.isScoped
            values := e.values.map String.ofList }
        diagnostics := l.members.2.map (·.inFile path) } ∧
    (regionOf l.text).2 = [] ∧
    (enumerationsOf ⟨path, includePath, String.ofList l.text⟩ l.scope).2 = [] := by
  have hregion := Layout.regionOf_text h
  have henums := Layout.enumerationsOf_text h path includePath l.scope
  refine ⟨?_, by rw [hregion], by rw [henums]⟩
  rw [recognize]
  dsimp only
  rw [String.toList_ofList, Layout.namespaceOf_text h, hregion, henums]
  simp only [Option.map_some, Option.getD_some, regionClass, String.toList_ofList,
    Layout.basesOf_text h, List.nil_append, List.append_nil]
  rfl

/-- A header with two namespaces, two bases, a region and two enumerations. -/
theorem actor_read :
    let l : Layout :=
      { namespaces := ["game".toList, "ai".toList]
        className := "Actor".toList
        bases := ["Base".toList, "Entity".toList]
        body := "  void move(int dx);\n".toList
        enums := [⟨true, "Color".toList, ["Red".toList, "Blue".toList]⟩,
          ⟨false, "Mode".toList, ["On".toList]⟩] }
    let r := recognize ⟨"a.h", "a.h", String.ofList l.text⟩
    l.WellFormed ∧
      l.text = joinLines ["//= SCRIPTABLE".toList, "//= SCRIPTABLE BASES Base Entity".toList,
        "namespace game \x7b".toList, "namespace ai \x7b".toList, "class Actor \x7b".toList,
        "//= BEGIN SCRIPTABLE".toList, "  void move(int dx);".toList, "//= END SCRIPTABLE".toList,
        "//= SCRIPTABLE ENUM".toList, "enum class Color \x7b Red, Blue \x7d;".toList,
        "//= SCRIPTABLE ENUM".toList, "enum Mode \x7b On \x7d;".toList,
        "\x7d;".toList, "\x7d".toList, "\x7d".toList] ∧
      r.scope = some "game::ai" ∧
      r.class?.map (fun k => (k.name, k.bases, k.body)) =
        some ("Actor", ["Base", "Entity"], "\n  void move(int dx);\n") ∧
      r.enums.map (fun e => (e.name, e.isScoped, e.values)) =
        [("Actor::Color", true, ["Red", "Blue"]), ("Actor::Mode", false, ["On"])] ∧
      (regionOf l.text).2 = [] ∧
      (enumerationsOf ⟨"a.h", "a.h", String.ofList l.text⟩ l.scope).2 = [] := by
  intro l r
  have hl : l.WellFormed := by decide +kernel
  obtain ⟨hread, hregion, henums⟩ := recognize_text hl "a.h" "a.h"
  have hr : r = _ := hread
  rw [hr]
  exact ⟨hl, by decide +kernel, by decide +kernel, by decide +kernel, by decide +kernel, hregion,
    henums⟩

end Header

end ChaiBind
