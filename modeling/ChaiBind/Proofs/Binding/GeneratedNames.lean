import ChaiBind.Proofs.Registry.ClassAncestors
import ChaiBind.Proofs.Registry.Scopes

/-!
# Names and types in generated code

Everything that is registered stands on one line, but for the values of enumerations and for include
paths (`oneLine_of_build`), and so do the names, types and expressions that generated code is put
together from.
-/

namespace ChaiBind

open Text Header

/-! ## What a run registers -/

/-- Everything that is registered stands on one line, but for values and include paths. -/
structure Registry.OneLine (r : Registry) : Prop where
  classes : ∀ c ∈ r.classes.values, c.OneLine ∧ ∀ a ∈ c.ancestors, Text.OneLine a
  enums : ∀ e ∈ r.enums.values, e.OneLine
  scopes : ∀ scope ∈ r.scopes, Text.OneLine scope

theorem oneLine_of_build {units : List SourceUnit} {r : Registry} {ds : List Diagnostic}
    (h : (Draft.ofList (units.map recognize)).build = .ok (r, ds)) : r.OneLine := by
  have hclass : ∀ c ∈ r.classes.values, c.OneLine := by
    intro c hc
    obtain ⟨u, -, c₀, ancestors, hclass, rfl⟩ := exists_class?_of_mem_classes h hc
    have hc₀ := oneLine_of_class? hclass
    exact ⟨hc₀.name, hc₀.scope, hc₀.bases, hc₀.methods⟩
  have hkeyed := Draft.keyed_ofList (units.map recognize)
  obtain ⟨resolved, hancestors⟩ := Draft.hasAncestors_of_build hkeyed h
  refine ⟨fun c hc => ⟨hclass c hc, fun a ha => ?_⟩, fun e he => ?_, fun scope hscope => ?_⟩
  · obtain ⟨d, hd, -, hbase⟩ :=
      hancestors.exists_base_of_mem (Draft.keyed_build hkeyed h) hc ha
    exact (hclass d hd).bases a hbase
  · obtain ⟨u, -, henum⟩ := exists_mem_enums_of_mem_enums h he
    exact oneLine_of_mem_enums henum
  · rw [Draft.scopes_of_build h] at hscope
    obtain ⟨_, hr, -, hscope⟩ := Draft.mem_scopes_ofList.1 hscope
    obtain ⟨u, -, rfl⟩ := List.mem_map.1 hr
    exact oneLine_of_mem_namespaceOf hscope

/-! ## Names and types in generated code -/

theorem isInfix_of_enclosingScope {cs scope : List Char} (h : enclosingScope cs = some scope) :
    scope <:+: cs := by
  suffices hstart : scope <+: cs from hstart.isInfix
  induction cs generalizing scope with
  | nil => cases h
  | cons c cs ih =>
    rw [enclosingScope] at h
    split at h
    · rename_i inner hinner
      obtain rfl := Option.some.inj h
      exact List.cons_prefix_cons.2 ⟨rfl, ih hinner⟩
    · split at h
      · obtain rfl := Option.some.inj h
        exact List.nil_prefix
      · cases h

theorem newline_notMem_replaceScopes {subst cs : List Char} (hsubst : '\n' ∉ subst)
    (h : '\n' ∉ cs) : '\n' ∉ replaceScopes subst cs := by
  fun_induction replaceScopes subst cs with
  | case1 cs ih =>
    simp only [List.mem_cons, not_or] at h
    rw [List.mem_append, not_or]
    exact ⟨hsubst, ih h.2.2⟩
  | case2 c cs _ ih =>
    rw [List.mem_cons, not_or] at h ⊢
    exact ⟨h.1, ih h.2⟩
  | case3 => exact List.not_mem_nil

theorem oneLine_commaSeparated {texts : List String} (h : ∀ text ∈ texts, Text.OneLine text) :
    Text.OneLine (commaSeparated texts) := by
  rw [Text.OneLine, commaSeparated, String.toList_intercalate]
  exact newline_notMem_intercalate (by decide) (List.forall_mem_map.2 h)

namespace Enumeration

variable {e : Enumeration} (h : e.OneLine)
include h

theorem OneLine.qualifiedName : Text.OneLine e.qualifiedName := oneLine_qualify h.scope h.name

theorem OneLine.flatName : Text.OneLine e.flatName :=
  oneLine_ofList.2 (newline_notMem_replaceScopes (by decide) h.name)

theorem OneLine.plainName : Text.OneLine e.plainName :=
  oneLine_ofList.2 (newline_notMem_replaceScopes List.not_mem_nil h.name)

/-- A value comes last in its expression. -/
theorem OneLine.exists_valueExpr :
    ∃ scope, Text.OneLine scope ∧ ∀ value, e.valueExpr value = scope ++ value := by
  cases hscoped : e.isScoped with
  | true =>
    refine ⟨e.qualifiedName ++ "::", oneLine_append.2 ⟨h.qualifiedName, by decide⟩, fun value => ?_⟩
    rw [valueExpr, if_pos hscoped]
  | false =>
    cases hscope : enclosingScope e.qualifiedName.toList with
    | none =>
      refine ⟨"", by decide, fun value => ?_⟩
      rw [valueExpr, if_neg (by simp [hscoped]), hscope, String.empty_append]
    | some scope =>
      refine ⟨String.ofList scope ++ "::", oneLine_append.2 ⟨oneLine_ofList.2 ?_, by decide⟩,
        fun value => ?_⟩
      · exact newline_notMem_of_isInfix (isInfix_of_enclosingScope hscope) h.qualifiedName
      · rw [valueExpr, if_neg (by simp [hscoped]), hscope]

end Enumeration

theorem oneLine_toString (i : Nat) : Text.OneLine (toString i) := by
  intro hmem
  rw [Nat.toString_eq_repr, Nat.toList_repr] at hmem
  exact absurd (Nat.isDigit_of_mem_toDigits (by decide) (by decide) hmem) (by decide)

namespace Overload

variable {o : Overload} (h : o.OneLine)
include h

theorem OneLine.types : Text.OneLine (Param.types o.params) :=
  oneLine_commaSeparated (List.forall_mem_map.2 fun p hp => (h.params p hp).type)

theorem OneLine.forwardingNames : ∀ name ∈ Param.forwardingNames o.params, Text.OneLine name := by
  have hfrom : ∀ (ps : List Param) (i : Nat), (∀ p ∈ ps, p.OneLine) →
      ∀ name ∈ Param.forwardingNamesFrom i ps, Text.OneLine name := by
    intro ps i hps
    induction ps generalizing i with
    | nil => nofun
    | cons p ps ih =>
      obtain ⟨hp, hps⟩ := List.forall_mem_cons.1 hps
      refine List.forall_mem_cons.2 ⟨?_, ih (i + 1) hps⟩
      cases hname : p.name with
      | none => exact oneLine_append.2 ⟨by decide, oneLine_toString i⟩
      | some name => exact hp.name name hname
  exact hfrom o.params 0 h.params

variable {type name : String} (htype : Text.OneLine type) (hname : Text.OneLine name)
include htype hname

theorem OneLine.staticCall : Text.OneLine (o.staticCall type name) := by
  have hparams : ∀ text ∈ (type ++ "& /*self*/") ::
      (o.params.zip (Param.forwardingNames o.params)).map fun p => p.1.type ++ " " ++ p.2,
      Text.OneLine text := by
    refine List.forall_mem_cons.2 ⟨oneLine_append.2 ⟨htype, by decide⟩, ?_⟩
    refine List.forall_mem_map.2 fun p hpair => ?_
    obtain ⟨hp, hforwarded⟩ := List.of_mem_zip hpair
    rw [oneLine_append, oneLine_append]
    exact ⟨⟨(h.params p.1 hp).type, by decide⟩, h.forwardingNames p.2 hforwarded⟩
  unfold Overload.staticCall
  simp only [oneLine_append, and_assoc]
  exact ⟨by decide, oneLine_commaSeparated hparams, by decide, htype, by decide, hname, by decide,
    oneLine_commaSeparated h.forwardingNames, by decide⟩

theorem OneLine.castAddress : Text.OneLine (o.castAddress type name) := by
  have hconst : Text.OneLine (if o.isConst then " const" else "") := by
    split <;> decide
  unfold Overload.castAddress
  simp only [oneLine_append, and_assoc]
  exact ⟨by decide, h.returnType, by decide, htype, by decide, h.types, by decide, hconst,
    by decide, htype, by decide, hname, by decide⟩

theorem OneLine.callable : Text.OneLine (o.callable type name) := by
  unfold Overload.callable
  split
  · exact h.staticCall htype hname
  · split
    · exact h.castAddress htype hname
    · simp only [oneLine_append, and_assoc]
      exact ⟨by decide, htype, by decide, hname⟩

theorem OneLine.methodEntry {className : String} (hclass : Text.OneLine className) :
    Text.OneLine (o.methodEntry className type name) := by
  have hexported : Text.OneLine (o.exportedName className name) := by
    unfold Overload.exportedName
    split
    · simp only [oneLine_append, and_assoc]
      exact ⟨hclass, by decide, hname⟩
    · exact hname
  unfold Overload.methodEntry
  simp only [oneLine_append, and_assoc]
  exact ⟨by decide, h.callable htype hname, by decide, hexported, by decide⟩

omit hname in
theorem OneLine.constructorEntry : Text.OneLine (o.constructorEntry type) := by
  unfold Overload.constructorEntry
  simp only [oneLine_append, and_assoc]
  exact ⟨by decide, htype, by decide, h.types, by decide⟩

end Overload

namespace ScriptClass

variable {c : ScriptClass} (h : c.OneLine)
include h

theorem OneLine.qualifiedName : Text.OneLine c.qualifiedName := oneLine_qualify h.scope h.name

theorem OneLine.constructorEntries : ∀ entry ∈ c.constructorEntries, Text.OneLine entry := by
  refine List.forall_mem_map.2 fun o ho => ?_
  obtain ⟨os, hos, ho⟩ := List.mem_flatten.1 (List.mem_filter.1 ho).1
  obtain ⟨e, he, rfl⟩ := List.mem_map.1 hos
  exact ((h.methods e he).2 o ho).constructorEntry h.qualifiedName

theorem OneLine.methodEntries : ∀ entry ∈ c.methodEntries, Text.OneLine entry := by
  refine List.forall_mem_map.2 fun bound hbound => ?_
  obtain ⟨e, he, hbound⟩ := List.mem_flatMap.1 hbound
  obtain ⟨o, ho, rfl⟩ := List.mem_map.1 hbound
  obtain ⟨hname, hoverloads⟩ := h.methods e he
  have hoverload := hoverloads o (List.mem_filter.1 ho).1
  exact hoverload.methodEntry h.qualifiedName hname h.name

end ScriptClass

theorem Registry.OneLine.relatedTypes {r : Registry} (hr : r.OneLine) {c : ScriptClass}
    (hc : c ∈ r.classes.values) : ∀ related ∈ c.relatedTypes r, Text.OneLine related := by
  refine List.forall_mem_map.2 fun ancestor hancestor => ?_
  unfold Registry.resolve
  split
  · rename_i d hd
    have hmem : d ∈ r.classes.values := List.mem_map.2 ⟨_, Table.get?_eq_some_iff.1 hd, rfl⟩
    exact (hr.classes d hmem).1.qualifiedName
  · exact (hr.classes c hc).2 ancestor hancestor

end ChaiBind
