import ChaiBind.Proofs.Registry.Scopes
import ChaiBind.Run.Generation

/-!
# Headers that contribute nothing

What a draft has said so far makes no difference to what it takes in and says from then on
(`add_behind`, `build_behind`). A header that declares neither a class nor an enumeration leaves
nothing but its own diagnostics in a draft (`add_of_silent`), so that a run with it differs from the
same run without it only in these (`generateWith_insert`).
-/

namespace ChaiBind

namespace Draft

/-- The draft with something said before all that it has said. -/
def behind (d : Draft) (said : List Diagnostic) : Draft :=
  { d with diagnostics := said ++ d.diagnostics }

variable (d : Draft) (said : List Diagnostic)

@[simp] theorem behind_registry : (d.behind said).registry = d.registry := rfl

@[simp] theorem behind_diagnostics : (d.behind said).diagnostics = said ++ d.diagnostics := rfl

theorem note_behind (path : String) (f : Option Finding) :
    (d.behind said).note path f = (d.note path f).behind said := by
  simp only [note, behind, List.append_assoc]

theorem addScope_behind (scope : Option String) :
    (d.behind said).addScope scope = (d.addScope scope).behind said := by
  cases scope with
  | none => rfl
  | some s =>
    show (if s ∈ d.registry.scopes then d.behind said else _) =
      behind (if s ∈ d.registry.scopes then d else _) said
    split <;> rfl

theorem addClass_behind (c : ScriptClass) :
    (d.behind said).addClass c = (d.addClass c).behind said := by
  simp only [addClass, behind_registry, note_behind]
  rfl

theorem addEnumeration_behind (e : Enumeration) :
    (d.behind said).addEnumeration e = (d.addEnumeration e).behind said := by
  simp only [addEnumeration, behind_registry, note_behind]
  rfl

theorem foldl_addEnumeration_behind (es : List Enumeration) :
    es.foldl addEnumeration (d.behind said) = (es.foldl addEnumeration d).behind said :=
  List.foldl_hom (behind · said) fun d e => addEnumeration_behind d said e

theorem add_behind (r : Recognized) : (d.behind said).add r = (d.add r).behind said := by
  have hsays : ({ d.behind said with diagnostics := (d.behind said).diagnostics ++ r.diagnostics } :
      Draft) = ({ d with diagnostics := d.diagnostics ++ r.diagnostics } : Draft).behind said := by
    simp only [behind, List.append_assoc]
  have hscope : ∀ d : Draft, (if r.contributes then (d.behind said).addScope r.scope
      else d.behind said) = (if r.contributes then d.addScope r.scope else d).behind said := by
    intro d
    split
    · exact addScope_behind d said r.scope
    · rfl
  have hclass : ∀ d : Draft, r.class?.elim (d.behind said) (d.behind said).addClass =
      (r.class?.elim d d.addClass).behind said := by
    intro d
    cases r.class? with
    | none => rfl
    | some c => exact addClass_behind d said c
  simp only [add, hsays, hscope, hclass, foldl_addEnumeration_behind]

theorem foldl_add_behind (rs : List Recognized) :
    rs.foldl add (d.behind said) = (rs.foldl add d).behind said :=
  List.foldl_hom (behind · said) fun d r => add_behind d said r

theorem build_behind : (d.behind said).build = d.build.map fun p => (p.1, said ++ p.2) := by
  have hinheritance : (d.behind said).inheritance = d.inheritance := rfl
  have hnotes : (d.behind said).unresolvedNotes = d.unresolvedNotes := rfl
  rw [build, build, hinheritance, hnotes, behind_diagnostics, List.append_assoc]
  cases d.inheritance.closure <;> rfl

/-- A header without declarations only has something to say. -/
theorem add_of_silent {r : Recognized} (hclass : r.class? = none) (henums : r.enums = []) :
    d.add r = { d with diagnostics := d.diagnostics ++ r.diagnostics } := by
  have hcontributes : ¬ r.contributes := by simp [Recognized.contributes, hclass, henums]
  simp only [add, hclass, henums, if_neg hcontributes]
  rfl

/-- All headers of a list leave one draft, behind what the first of them say and, if a header
without declarations comes after these, what that one says. -/
theorem exists_ofList_append (rs ss : List Recognized) :
    ∃ d : Draft, ofList (rs ++ ss) = d.behind (ofList rs).diagnostics ∧
      ∀ r : Recognized, r.class? = none → r.enums = [] →
        ofList (rs ++ r :: ss) = d.behind ((ofList rs).diagnostics ++ r.diagnostics) := by
  refine ⟨ss.foldl add ⟨(ofList rs).registry, []⟩, ?_, fun r hclass henums => ?_⟩
  · rw [← foldl_add_behind, ofList, List.foldl_append]
    simp only [behind, List.append_nil]
    rfl
  · rw [← foldl_add_behind, ofList, List.foldl_append, List.foldl_cons,
      add_of_silent _ hclass henums]
    simp only [behind, List.append_nil]
    rfl

end Draft

/-- All that is said while some headers are taken in. -/
def saidAbout (recognizer : SourceUnit → Recognized) (units : List SourceUnit) : List Diagnostic :=
  (Draft.ofList (units.map recognizer)).diagnostics

theorem generateWith_of_behind {recognizer : SourceUnit → Recognized} {units : List SourceUnit}
    {d : Draft} {said : List Diagnostic}
    (h : Draft.ofList (units.map recognizer) = d.behind said) (guardName : String) :
    generateWith recognizer units guardName =
      d.build.map fun p => ⟨p.1.header guardName, said ++ p.2, p.1⟩ := by
  rw [generateWith, h, Draft.build_behind]
  cases d.build <;> rfl

/-- However headers are read, one that declares neither a class nor an enumeration does not keep a
run from failing with the cycle with which it fails without it. If there is no cycle, the generated
header and its registry are the same, and what the header brings along stands between what is said
about the headers before it and all that is said later. -/
theorem generateWith_insert {recognizer : SourceUnit → Recognized} {u : SourceUnit}
    (hclass : (recognizer u).class? = none) (henums : (recognizer u).enums = [])
    (before after : List SourceUnit) (guardName : String) :
    (∀ c, generateWith recognizer (before ++ u :: after) guardName = .error c ↔
      generateWith recognizer (before ++ after) guardName = .error c) ∧
    ∀ g, generateWith recognizer (before ++ after) guardName = .ok g →
      ∃ later, g.diagnostics = saidAbout recognizer before ++ later ∧
        generateWith recognizer (before ++ u :: after) guardName =
          .ok ⟨g.text, saidAbout recognizer before ++ (recognizer u).diagnostics ++ later,
            g.registry⟩ := by
  obtain ⟨d, hwithout, hwith⟩ :=
    Draft.exists_ofList_append (before.map recognizer) (after.map recognizer)
  rw [← List.map_append] at hwithout
  replace hwith := hwith (recognizer u) hclass henums
  rw [← List.map_cons, ← List.map_append] at hwith
  rw [generateWith_of_behind hwithout, generateWith_of_behind hwith]
  cases d.build with
  | error cycle => exact ⟨fun c => Iff.rfl, nofun⟩
  | ok built =>
    obtain ⟨r, later⟩ := built
    refine ⟨fun c => ⟨nofun, nofun⟩, fun g hg => ?_⟩
    simp only [Except.map, Except.ok.injEq] at hg
    subst hg
    refine ⟨later, rfl, ?_⟩
    simp only [Except.map, saidAbout]

/-- A region that is never closed, in a namespace of its own. -/
def halfHeader : SourceUnit :=
  ⟨"half.h", "half.h",
    "namespace Half \x7b\nclass Part \x7b\n//= BEGIN SCRIPTABLE\nPart();\n\x7d;\n\x7d\n"⟩

set_option maxRecDepth 2000 in
/-- Between two headers with classes of one name, what is said about the region comes before the
warning that the second class replaces the first. -/
theorem generateWith_insert_half :
    let sprites := [classHeader "a.h" "A" "Sprite" "", classHeader "b.h" "B" "Sprite" ""]
    let withHalf := [classHeader "a.h" "A" "Sprite" "", halfHeader, classHeader "b.h" "B" "Sprite" ""]
    (recognize halfHeader).class? = none ∧ (recognize halfHeader).enums = [] ∧
      (recognize halfHeader).scope = some "Half" ∧
      ∃ g g', generate sprites "G" = .ok g ∧ generate withHalf "G" = .ok g' ∧ g'.text = g.text ∧
        g'.registry.scopes = ["A", "B"] ∧
        g.diagnostics.map (·.code) = ["scriptgen::duplicate-class"] ∧
        g'.diagnostics.map (·.code) =
          ["scriptgen::unterminated-region", "scriptgen::duplicate-class"] := by
  intro sprites withHalf
  have hclass : (recognize halfHeader).class? = none := rfl
  have henums : (recognize halfHeader).enums = [] := rfl
  have hcode : (recognize halfHeader).diagnostics.map (·.code) =
      ["scriptgen::unterminated-region"] := rfl
  have hsaid : saidAbout recognize [classHeader "a.h" "A" "Sprite" ""] = [] := rfl
  obtain ⟨g, h, hscopes, hcodes⟩ : ∃ g, generate sprites "G" = .ok g ∧
      g.registry.scopes = ["A", "B"] ∧ g.diagnostics.map (·.code) = ["scriptgen::duplicate-class"] :=
    ⟨_, rfl, rfl, rfl⟩
  obtain ⟨later, hlater, hwith⟩ := (generateWith_insert hclass henums
    [classHeader "a.h" "A" "Sprite" ""] [classHeader "b.h" "B" "Sprite" ""] "G").2 g h
  rw [hsaid, List.nil_append] at hlater hwith
  refine ⟨hclass, henums, rfl, g, _, h, hwith, rfl, hscopes, hcodes, ?_⟩
  rw [List.map_append, hcode, ← hlater, hcodes]
  rfl

end ChaiBind
