import ChaiBind.Proofs.Header.DiagnosticPlaces
import ChaiBind.Proofs.Header.EndingEnums
import ChaiBind.Proofs.Header.MemberTable
import ChaiBind.Proofs.Header.SignatureParts
import ChaiBind.Proofs.Registry.Keys
import ChaiBind.Proofs.Text.Fragments

/-!
# Names that a header declares

Classes, enumerations and methods are named by identifiers, and everything else that is read from a
header comes from a single line: types and parameters from that of a member, bases from that of
their marker. Only the values of an enumeration may go on over a newline, and they stand in the text
without comments (`exists_of_mem_values`).

* `isIdentifier_of_class?`: the name of a class.
* `oneLine_of_class?`, `oneLine_of_mem_enums`: what else is declared.
-/

namespace ChaiBind

open Text Header

/-! ## Members -/

/-- A parameter whose type and name are on one line. -/
structure Param.OneLine (p : Param) : Prop where
  type : Text.OneLine p.type
  name : ∀ n ∈ p.name, Text.OneLine n

/-- An overload whose types and names are on one line. -/
structure Overload.OneLine (o : Overload) : Prop where
  returnType : Text.OneLine o.returnType
  params : ∀ p ∈ o.params, p.OneLine

theorem Param.oneLine_ofDeclaration {text : List Char} (h : '\n' ∉ text) :
    (Param.ofDeclaration text).OneLine := by
  have hdecl : '\n' ∉ trim text := newline_notMem_of_isInfix (trim_isInfix text) h
  have hbefore : '\n' ∉ (cutName (trim text)).1 :=
    newline_notMem_of_isInfix (List.take_prefix _ _).isInfix hdecl
  have hname : '\n' ∉ (cutName (trim text)).2 := by
    simp only [cutName, List.mem_reverse]
    exact fun hmem => hdecl (List.mem_reverse.1 ((List.takeWhile_subset _) hmem))
  unfold Param.ofDeclaration
  dsimp only
  split
  · refine ⟨oneLine_ofList.2 (newline_notMem_of_isInfix (trimEnd_isPrefix _).isInfix hbefore), ?_⟩
    rintro n hn
    cases hn
    exact oneLine_ofList.2 hname
  · exact ⟨oneLine_ofList.2 hdecl, nofun⟩

theorem Param.oneLine_of_mem_ofList {text : List Char} (h : '\n' ∉ text) {p : Param}
    (hp : p ∈ Param.ofList text) : p.OneLine := by
  unfold Param.ofList at hp
  dsimp only at hp
  split at hp
  · cases hp
  · obtain ⟨decl, hdecl, rfl⟩ := List.mem_map.1 hp
    obtain ⟨piece, hpiece, rfl⟩ := List.mem_map.1 (List.mem_filter.1 hdecl).1
    refine Param.oneLine_ofDeclaration (newline_notMem_of_isInfix ?_ h)
    exact (trim_isInfix _).trans
      ((beforeAssignment_isPrefix piece).isInfix.trans (isInfix_of_mem_splitTopLevel hpiece))

namespace Header

theorem newline_notMem_returnType (s : Signature) : '\n' ∉ s.returnType :=
  newline_notMem_intercalate (by decide) fun _ hw =>
    newline_notMem_of_mem_words (List.mem_filter.1 hw).1

/-- The signature of a line declares nothing that goes on over a newline. -/
theorem Signature.oneLine_overload {line : List Char} (hline : '\n' ∉ line) {s : Signature}
    (h : signature? line = some s) (code : List Char) : (s.overload code).OneLine := by
  obtain ⟨gap, hfits⟩ := signature?_eq_some h
  have hparams : '\n' ∉ s.params := by
    rw [hfits.line] at hline
    simp only [List.mem_append, List.mem_cons, not_or] at hline
    exact hline.2.2.2.2.1
  exact ⟨oneLine_ofList.2 (newline_notMem_returnType s),
    fun _ hp => Param.oneLine_of_mem_ofList hparams hp⟩

theorem newline_notMem_lineCode {cs line : List Char} (h : line ∈ inclusiveLines cs) :
    '\n' ∉ lineCode line := by
  have htrim : '\n' ∉ trim line := by
    rcases line.eq_nil_or_concat' with rfl | ⟨line, c, rfl⟩
    · exact List.not_mem_nil
    · have hline := newline_notMem_dropLast h
      rw [List.dropLast_concat] at hline
      by_cases hc : c = '\n'
      · rw [trim_append_of_blank (by simp [hc, isBlank_newline])]
        exact newline_notMem_of_isInfix (trim_isInfix line) hline
      · exact newline_notMem_of_isInfix (trim_isInfix _) (by simp [hline, Ne.symm hc])
  unfold lineCode
  dsimp only
  split
  · exact List.not_mem_nil
  · exact htrim

/-- The members of a region are named and declared on one line each. -/
theorem oneLine_methodsOf {className : String} {body text : List Char} {offset : Nat}
    {e : String × List Overload} (he : e ∈ (methodsOf className body offset text).1.entries) :
    Text.OneLine e.1 ∧ ∀ o ∈ e.2, o.OneLine := by
  have hget := Table.get?_eq_some_iff.2 he
  rw [fst_methodsOf, get?_tableOf] at hget
  split at hget
  · cases hget
  · rename_i hne
    have hoverloads := Option.some.inj hget
    have hmember : ∀ o ∈ e.2, Text.OneLine e.1 ∧ o.OneLine := by
      intro o ho
      rw [← hoverloads] at ho
      obtain ⟨m, hm, rfl⟩ := List.mem_map.1 ho
      obtain ⟨hm, hname⟩ := List.mem_filter.1 hm
      obtain ⟨line, hline, hreading⟩ := exists_line_of_mem_membersFrom hm
      obtain ⟨-, s, hs, -, hsname, hoverload⟩ := exists_signature_of_member hreading
      obtain ⟨gap, hfits⟩ := signature?_eq_some hs
      rw [← of_decide_eq_true hname, hoverload]
      refine ⟨?_, s.oneLine_overload (newline_notMem_lineCode hline) hs _⟩
      rw [Text.OneLine, ← hsname]
      exact hfits.name.newline_notMem
    obtain ⟨o, ho⟩ := List.exists_mem_of_ne_nil _ (hoverloads ▸ hne)
    exact ⟨(hmember o ho).1, fun o ho => (hmember o ho).2⟩

/-! ## Classes -/

theorem isIdentifier_of_mem_classDeclarations {cs : List Char} {d : ClassDeclaration}
    (h : d ∈ classDeclarations cs) : IsIdentifier d.name.toList := by
  obtain ⟨⟨offset, line⟩, -, hd⟩ := List.mem_filterMap.1 h
  obtain ⟨name, hname, rfl⟩ := Option.map_eq_some_iff.1 hd
  simp only [declaredName?, Option.bind_eq_bind, Option.bind_eq_some_iff] at hname
  obtain ⟨rest, -, -, -, ⟨name', after⟩, hidentifier, -, -, hsame⟩ := hname
  cases hsame
  rw [String.toList_ofList]
  exact (takeIdentifier_eq_some hidentifier).1

theorem isIdentifier_of_owningClass? {cs : List Char} {offset : Nat} {d : ClassDeclaration}
    (h : owningClass? (classDeclarations cs) offset = some d) : IsIdentifier d.name.toList :=
  isIdentifier_of_mem_classDeclarations (List.mem_reverse.1 (List.mem_of_find?_eq_some h))

theorem oneLine_of_mem_basesOf {cs : List Char} {base : String} (h : base ∈ basesOf cs) :
    Text.OneLine base := by
  unfold basesOf at h
  split at h
  · cases h
  · obtain ⟨trimmed, htrimmed, rfl⟩ := List.mem_map.1 h
    obtain ⟨w, hw, rfl⟩ := List.mem_map.1 (List.mem_filter.1 htrimmed).1
    rw [oneLine_ofList]
    intro hmem
    have hinner := (List.dropWhile_subset _) (List.mem_reverse.1 hmem)
    exact newline_notMem_of_mem_words hw ((List.dropWhile_subset _) (List.mem_reverse.1 hinner))

theorem newline_notMem_takeQualifiers (n : Nat) (cs : List Char) :
    '\n' ∉ (takeQualifiers n cs).1 := by
  fun_induction takeQualifiers n cs with
  | case1 cs => exact List.not_mem_nil
  | case2 n cs name rest htake more rest' hmore ih =>
    have hname := (takeIdentifier_eq_some htake).1.newline_notMem
    rw [hmore] at ih
    simp [hname, ih]
  | case3 | case4 => exact List.not_mem_nil

theorem oneLine_of_mem_namespaceOf {cs : List Char} {scope : String}
    (h : scope ∈ namespaceOf cs) : Text.OneLine scope := by
  have hchains : ∀ chain ∈ namespaceOpenings cs, '\n' ∉ chain := by
    intro chain hchain
    obtain ⟨p, -, hopening⟩ := List.mem_filterMap.1 hchain
    simp only [namespaceOpening?, Option.bind_eq_bind, Option.bind_eq_some_iff] at hopening
    obtain ⟨-, -, rest, -, -, -, ⟨chain', after⟩, htake, -, -, hsame⟩ := hopening
    cases hsame
    obtain ⟨⟨name, rest'⟩, hname, hpair⟩ := Option.map_eq_some_iff.1 htake
    have hchain : name ++ (takeQualifiers rest'.length rest').1 = chain' := congrArg Prod.fst hpair
    rw [← hchain, List.mem_append, not_or]
    exact ⟨(takeIdentifier_eq_some hname).1.newline_notMem, newline_notMem_takeQualifiers _ _⟩
  unfold namespaceOf at h
  split at h
  · cases h
  · rename_i hne
    cases h
    exact oneLine_ofList.2 (newline_notMem_intercalate (by decide) hchains)

/-! ## Enumerations -/

theorem isIdentifier_of_enumName? {cs : List Char} {p : List Char × List Char}
    (h : enumName? cs = some p) : IsIdentifier p.1 := by
  obtain ⟨q, hq, rfl⟩ := Option.map_eq_some_iff.1 h
  exact (takeIdentifier_eq_some hq).1

theorem isIdentifier_of_enumDeclaration? {cs : List Char} {d : EnumDeclaration}
    (h : enumDeclaration? cs = some d) : IsIdentifier d.name := by
  rw [enumDeclaration?_eq] at h
  obtain ⟨head, hhead, hd⟩ := Option.bind_eq_some_iff.1 h
  obtain ⟨body, -, rfl⟩ := Option.map_eq_some_iff.1 hd
  obtain ⟨rest, -, hhead⟩ := Option.bind_eq_some_iff.1 hhead
  cases hscoped : (afterScopeKeyword? rest).bind enumName? with
  | some p =>
    rw [hscoped] at hhead
    obtain rfl := Option.some.inj hhead
    obtain ⟨r, -, hname⟩ := Option.bind_eq_some_iff.1 hscoped
    exact isIdentifier_of_enumName? hname
  | none =>
    rw [hscoped] at hhead
    obtain ⟨p, hname, rfl⟩ := Option.map_eq_some_iff.1 hhead
    exact isIdentifier_of_enumName? hname

/-- A value stands in the body of its enumeration without comments. -/
theorem isInfix_of_mem_enumerators {body : List Char} {v : String} (h : v ∈ enumerators body) :
    v.toList <:+: stripComments body := by
  obtain ⟨text, htext, rfl⟩ := List.mem_map.1 h
  obtain ⟨piece, hpiece, rfl⟩ := List.mem_map.1 (List.mem_filter.1 htext).1
  rw [String.toList_ofList]
  exact (trim_isInfix _).trans
    ((beforeAssignment_isPrefix piece).isInfix.trans (isInfix_of_mem_splitTopLevel hpiece))

end Header

/-! ## What a header declares -/

/-- Everything that generated code says of a class stands on one line. -/
structure ScriptClass.OneLine (c : ScriptClass) : Prop where
  name : Text.OneLine c.name
  scope : ∀ scope ∈ c.scope, Text.OneLine scope
  bases : ∀ base ∈ c.bases, Text.OneLine base
  methods : ∀ e ∈ c.methods.entries, Text.OneLine e.1 ∧ ∀ o ∈ e.2, o.OneLine

/-- Everything that generated code says of an enumeration stands on one line, but for its values. -/
structure Enumeration.OneLine (e : Enumeration) : Prop where
  name : Text.OneLine e.name
  scope : ∀ scope ∈ e.scope, Text.OneLine scope

theorem isIdentifier_of_class? {u : SourceUnit} {c : ScriptClass}
    (h : (recognize u).class? = some c) : IsIdentifier c.name.toList := by
  obtain ⟨_, howner, rfl⟩ := Option.map_eq_some_iff.1 h
  obtain ⟨region, hregion, rfl⟩ := Option.map_eq_some_iff.1 howner
  have hregion : (regionOf u.text.toList).1 = some region := hregion
  rw [fst_regionOf] at hregion
  obtain ⟨first, -, hregion⟩ := Option.bind_eq_some_iff.1 hregion
  obtain ⟨last, -, hregion⟩ := Option.bind_eq_some_iff.1 hregion
  obtain ⟨owner, howning, rfl⟩ := Option.map_eq_some_iff.1 hregion
  exact isIdentifier_of_owningClass? howning

theorem oneLine_of_class? {u : SourceUnit} {c : ScriptClass} (h : (recognize u).class? = some c) :
    c.OneLine := by
  have hname := (isIdentifier_of_class? h).newline_notMem
  obtain ⟨_, howner, rfl⟩ := Option.map_eq_some_iff.1 h
  obtain ⟨region, -, rfl⟩ := Option.map_eq_some_iff.1 howner
  exact ⟨hname, fun _ hs => oneLine_of_mem_namespaceOf hs, fun _ hb => oneLine_of_mem_basesOf hb,
    fun _ he => oneLine_methodsOf he⟩

/-- Where an enumeration of a header stands in its text. -/
theorem exists_declaration_of_mem_enums {u : SourceUnit} {e : Enumeration}
    (h : e ∈ (recognize u).enums) : ∃ (site : Marker.Site) (d : EnumDeclaration),
      site ∈ Marker.enumeration.sites u.text.toList ∧
      enumDeclaration? (skipTrivia site.rest) = some d ∧
      e.name = qualify ((owningClass? (classDeclarations u.text.toList) site.start).map (·.name))
        (String.ofList d.name) ∧
      e.scope = namespaceOf u.text.toList ∧ e.includePath = u.includePath ∧
      e.values = enumerators d.body := by
  obtain ⟨found, hfound, he⟩ := List.mem_filterMap.1 h
  obtain ⟨site, hsite, rfl⟩ := List.mem_map.1 hfound
  rw [enumerationAt] at he
  cases hd : enumDeclaration? (skipTrivia site.rest) with
  | none =>
    rw [hd] at he
    cases he
  | some d =>
    rw [hd] at he
    obtain rfl := Option.some.inj he
    exact ⟨site, d, hsite, hd, rfl, rfl, rfl, rfl⟩

theorem oneLine_qualify {scope : Option String} (hscope : ∀ s ∈ scope, Text.OneLine s)
    {name : String} (hname : Text.OneLine name) : Text.OneLine (qualify scope name) := by
  cases scope with
  | none => exact hname
  | some s =>
    rw [qualify, oneLine_append, oneLine_append]
    exact ⟨⟨hscope s rfl, by decide⟩, hname⟩

theorem oneLine_of_mem_enums {u : SourceUnit} {e : Enumeration} (h : e ∈ (recognize u).enums) :
    e.OneLine := by
  obtain ⟨site, d, -, hd, hname, hscope, -, -⟩ := exists_declaration_of_mem_enums h
  refine ⟨hname ▸ oneLine_qualify (fun s hs => ?_) (oneLine_ofList.2 ?_), fun s hs => ?_⟩
  · obtain ⟨owner, howner, rfl⟩ := Option.map_eq_some_iff.1 hs
    exact (isIdentifier_of_owningClass? howner).newline_notMem
  · exact (isIdentifier_of_enumDeclaration? hd).newline_notMem
  · exact oneLine_of_mem_namespaceOf (hscope ▸ hs)

/-- A value of an enumeration stands in a part of the text that has been stripped of comments. -/
theorem exists_of_mem_values {u : SourceUnit} {e : Enumeration} (h : e ∈ (recognize u).enums)
    {v : String} (hv : v ∈ e.values) :
    ∃ body, body <:+: u.text.toList ∧ v.toList <:+: stripComments body := by
  obtain ⟨site, d, hsite, hd, -, -, -, hvalues⟩ := exists_declaration_of_mem_enums h
  rw [hvalues] at hv
  obtain ⟨pre, text, hcs, -⟩ := Marker.exists_of_mem_sites hsite
  have hrest : site.rest <:+ u.text.toList := ⟨pre ++ text, by rw [hcs, List.append_assoc]⟩
  exact ⟨d.body, (body_isInfix hd).trans ((skipTriviaFrom_isSuffix _ _).trans hrest).isInfix,
    isInfix_of_mem_enumerators hv⟩

end ChaiBind
