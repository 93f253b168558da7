import ChaiBind.Binding.Class
import ChaiBind.Proofs.Header.Mentions
import ChaiBind.Proofs.Header.MemberTable
import ChaiBind.Proofs.Header.SignatureParts
import ChaiBind.Proofs.Registry.Keys

/-!
# Marks of overloaded members

A member is marked as overloaded by the file it stands in, in which its name and
a parenthesis right behind it are counted; its region holds as many overloads of a
name as it has lines that declare the name. The two agree on the lines that have no
blank between the name and the parameter list (`declaresClosely`): a file mentions
a name at least once for every such line of any of its regions
(`countP_declaresClosely_le`). A line that has blanks there declares an overload
and is not counted.

* `overloadsMarked_iff`: the overloads of a table are marked if and only if the file
  mentions each name that has several of them twice, for which two lines without
  blanks are enough, and if they are, no routine takes the address of one of them
  without a cast.
-/

namespace ChaiBind

namespace MethodTable

/-- Each overload of a name that has several is marked. -/
def OverloadsMarked (t : MethodTable) : Prop :=
  ∀ name os, t.get? name = some os → 2 ≤ os.length → ∀ o ∈ os, o.isOverloaded

end MethodTable

/-- The bare address of a method of a type. -/
def address (type name : String) : String := "&" ++ type ++ "::" ++ name

/-- No method of a name that has several overloads is bound by its bare address. -/
def ScriptClass.PicksOverloads (c : ScriptClass) : Prop :=
  ∀ m ∈ c.boundMethods, ∀ os, c.methods.get? m.1 = some os → 2 ≤ os.length →
    m.2.callable c.qualifiedName m.1 ≠ address c.qualifiedName m.1

namespace Overload

/-- A lambda, a cast and an address start with different characters. -/
theorem head?_staticCall (type name : String) (o : Overload) :
    (o.staticCall type name).toList.head? = some '[' := by
  unfold staticCall
  simp only [String.toList_append, List.head?_append]
  rfl

theorem head?_castAddress (type name : String) (o : Overload) :
    (o.castAddress type name).toList.head? = some 's' := by
  unfold castAddress
  simp only [String.toList_append, List.head?_append]
  rfl

theorem head?_address (type name : String) : (address type name).toList.head? = some '&' := by
  unfold address
  simp only [String.toList_append, List.head?_append]
  rfl

theorem callable_ne_address {o : Overload} (h : o.isOverloaded) (type name : String) :
    o.callable type name ≠ address type name := by
  intro heq
  have haddress := head?_address type name
  unfold callable at heq
  split at heq
  · rw [← heq, head?_staticCall] at haddress
    exact absurd haddress (by decide)
  · rw [← heq, head?_castAddress] at haddress
    exact absurd haddress (by decide)

end Overload

/-- A method that a class binds is an overload of its name in the table of the class. -/
theorem ScriptClass.exists_get?_of_mem_boundMethods {c : ScriptClass} {m : String × Overload}
    (h : m ∈ c.boundMethods) : ∃ os, c.methods.get? m.1 = some os ∧ m.2 ∈ os := by
  obtain ⟨⟨name, os⟩, hentry, hm⟩ := List.mem_flatMap.1 h
  obtain ⟨o, ho, rfl⟩ := List.mem_map.1 hm
  refine ⟨os, ?_, (List.mem_filter.1 ho).1⟩
  exact Table.get?_eq_some_iff.2 hentry

theorem ScriptClass.picksOverloads_of_marked {c : ScriptClass} (h : c.methods.OverloadsMarked) :
    c.PicksOverloads := by
  intro m hm os hos hlen
  obtain ⟨os', hos', hmem⟩ := c.exists_get?_of_mem_boundMethods hm
  obtain rfl := Option.some.inj (hos.symm.trans hos')
  exact Overload.callable_ne_address (h m.1 os hos hlen m.2 hmem) _ _

namespace Header

open Text

/-! ## Lines that declare a name -/

/-- A line declares a name, with the parameter list right behind it. -/
def declaresClosely (name line : List Char) : Bool :=
  !isDeleted line && (signature? line).any fun s =>
    s.name = name && (s.before ++ name ++ ['(']).isPrefixOf line

theorem declaresClosely_iff {name line : List Char} :
    declaresClosely name line ↔ isDeleted line = false ∧ ∃ s, signature? line = some s ∧
      s.name = name ∧ s.before ++ name ++ ['('] <+: line := by
  simp only [declaresClosely, Bool.and_eq_true, Bool.not_eq_true', Option.any_eq_true,
    decide_eq_true_eq, List.isPrefixOf_iff_prefix]

/-- A name with a parenthesis behind it stands in a line that has it after some text. -/
theorem occurrences_pos {before name rest : List Char}
    (hbefore : before.getLast?.any isWord = false) :
    0 < occurrences name (before ++ name ++ '(' :: rest) := by
  rw [occurrences_eq, List.append_assoc]
  refine countFrom_append_pos ?_
  rw [callAt, Option.or_none, hbefore, Bool.not_false, Bool.true_and, List.isPrefixOf_iff_prefix]
  exact ⟨rest, by rw [List.append_assoc, List.singleton_append]⟩

theorem mentions_pos_of_declaresClosely {name line : List Char} (h : declaresClosely name line) :
    0 < mentions name line := by
  obtain ⟨hkept, s, hs, -, rest, rfl⟩ := declaresClosely_iff.1 h
  obtain ⟨gap, hfits⟩ := signature?_eq_some hs
  rw [mentions, hkept, if_neg Bool.false_ne_true, List.append_assoc, List.singleton_append]
  exact occurrences_pos hfits.apart

theorem lineCode_eq_trim {line : List Char} (h : lineCode line ≠ []) : lineCode line = trim line := by
  rw [lineCode] at h ⊢
  split at h
  · exact absurd rfl h
  · rename_i hdirective
    exact if_neg hdirective

section Count

variable {name : List Char} (hname : ∀ c ∈ name, isWord c)
include hname

/-- Lines mention a name at least as often as they declare it without a blank in between. -/
theorem countP_declaresClosely_le (lines : List (List Char)) :
    lines.countP (fun line => declaresClosely name (lineCode line)) ≤ mentionsIn name lines := by
  induction lines with
  | nil => exact Nat.le_refl 0
  | cons line lines ih =>
    rw [List.countP_cons, mentionsIn, sumLines, ← mentionsIn, Nat.add_comm]
    refine Nat.add_le_add ?_ ih
    split
    · rename_i hdeclares
      have hcode : lineCode line = trim line := by
        refine lineCode_eq_trim fun hnil => ?_
        rw [hnil] at hdeclares
        exact absurd hdeclares (by simp [declaresClosely, signature?, signatureFrom?])
      rw [hcode] at hdeclares
      rw [← mentions_trim hname]
      exact mentions_pos_of_declaresClosely hdeclares
    · exact Nat.zero_le _

end Count

/-! ## Slices of a file -/

/-- A region that is made of whole lines of a file and starts outside comments and literals. -/
structure IsSlice (before body after : List Char) : Prop where
  scan : Scan.start.after before none = .start
  starts : EndsLine before
  ends : EndsLine body ∨ after = []

/-- The lines of a file are, without comments, those of its parts. -/
theorem IsSlice.inclusiveLines_eq {before body after : List Char} (h : IsSlice before body after) :
    ∃ pre post, inclusiveLines (stripComments (before ++ body ++ after)) =
      pre ++ inclusiveLines (stripComments body) ++ post := by
  have hscan : Scan.start.after before (body ++ after).head? = .start := by
    rw [h.starts.after_eq .start _ none]
    exact h.scan
  have hbody : ∃ post, inclusiveLines (stripComments (body ++ after)) =
      inclusiveLines (stripComments body) ++ post := by
    rcases h.ends with hends | rfl
    · refine ⟨inclusiveLines (stripFrom (Scan.start.after body after.head?) after), ?_⟩
      rw [stripComments, stripFrom_append, hends.stripPart_eq .start _ none,
        inclusiveLines_append (hends.stripPart .start none), ← stripFrom_eq_stripPart,
        ← stripComments]
    · exact ⟨[], by rw [List.append_nil, List.append_nil]⟩
  obtain ⟨post, hpost⟩ := hbody
  refine ⟨inclusiveLines (stripPart .start before (body ++ after).head?), post, ?_⟩
  rw [List.append_assoc, stripComments, stripFrom_append, hscan,
    inclusiveLines_append (h.starts.stripPart .start _), ← stripComments, hpost, List.append_assoc]

/-- A file mentions a name at least as often as one of its regions declares it closely. -/
theorem IsSlice.countP_le_occurrences {before body after name : List Char}
    (h : IsSlice before body after) (hname : ∀ c ∈ name, isWord c) :
    (inclusiveLines (stripComments body)).countP (fun line => declaresClosely name (lineCode line)) ≤
      occurrences name (countedCode (before ++ body ++ after)) := by
  obtain ⟨pre, post, hlines⟩ := h.inclusiveLines_eq
  have hle := countP_declaresClosely_le hname (inclusiveLines (stripComments body))
  rw [occurrences_countedCode hname, hlines, mentionsIn_append, mentionsIn_append]
  omega

/-! ## Marks in a table -/

section Marks

variable {className : String} {body text : List Char} {offset : Nat} {name : String}
  {os : List Overload}

/-- What stands in the table under a name has been counted under that name. -/
theorem isOverloaded_iff (h : (methodsOf className body offset text).1.get? name = some os)
    {o : Overload} (ho : o ∈ os) :
    o.isOverloaded ↔ 2 ≤ occurrences name.toList (countedCode text) := by
  rw [fst_methodsOf, get?_tableOf] at h
  split at h
  · cases h
  · cases h
    obtain ⟨m, hm, rfl⟩ := List.mem_map.1 ho
    obtain ⟨hmem, hname⟩ := List.mem_filter.1 hm
    obtain ⟨line, -, hreading⟩ := exists_line_of_mem_membersFrom hmem
    obtain ⟨-, s, -, -, hs, hoverload⟩ := exists_signature_of_member hreading
    rw [hoverload, Signature.overload, hs, of_decide_eq_true hname, decide_eq_true_eq]
    exact Iff.rfl

theorem isWord_of_get? (h : (methodsOf className body offset text).1.get? name = some os) :
    ∀ c ∈ name.toList, isWord c := by
  rw [fst_methodsOf, get?_tableOf] at h
  split at h
  · cases h
  · rename_i hne
    obtain ⟨o, ho⟩ := List.exists_mem_of_ne_nil _ hne
    obtain ⟨m, hm, -⟩ := List.mem_map.1 ho
    obtain ⟨hmem, hname⟩ := List.mem_filter.1 hm
    obtain ⟨line, -, hreading⟩ := exists_line_of_mem_membersFrom hmem
    obtain ⟨-, s, hs, -, hsname, -⟩ := exists_signature_of_member hreading
    obtain ⟨gap, hfits⟩ := signature?_eq_some hs
    intro c hc
    rw [← of_decide_eq_true hname, ← hsname] at hc
    exact hfits.name.isWord_of_mem hc

/-- The marks of a table against the file it comes from. -/
theorem marked_iff :
    (methodsOf className body offset text).1.OverloadsMarked ↔
      ∀ name os, (methodsOf className body offset text).1.get? name = some os → 2 ≤ os.length →
        2 ≤ occurrences name.toList (countedCode text) := by
  constructor
  · intro hmarked name os hos hlen
    obtain ⟨o, ho⟩ := List.exists_mem_of_length_pos (Nat.lt_of_lt_of_le Nat.zero_lt_two hlen)
    exact (isOverloaded_iff hos ho).1 (hmarked name os hos hlen o ho)
  · intro htwice name os hos hlen o ho
    exact (isOverloaded_iff hos ho).2 (htwice name os hos hlen)

end Marks

/-- The overloads of a name that has several in a region are marked if and only if the file has the
name with a parenthesis right behind it twice, lines of deleted members aside. It has it for each
line of the region that declares the name closely. If all are marked, no class with the table of
the region binds one of them by its bare address. -/
theorem overloadsMarked_iff {className : String} {before body after : List Char}
    (h : IsSlice before body after) :
    let text := before ++ body ++ after
    let table := (methodsOf className body (byteLength before) text).1
    (table.OverloadsMarked ↔
      ∀ name os, table.get? name = some os → 2 ≤ os.length →
        2 ≤ occurrences name.toList (countedCode text)) ∧
    ((∀ name os, table.get? name = some os → 2 ≤ os.length →
        2 ≤ (inclusiveLines (stripComments body)).countP fun line =>
          declaresClosely name.toList (lineCode line)) →
      table.OverloadsMarked) ∧
    (table.OverloadsMarked → ∀ c : ScriptClass, c.methods = table → c.PicksOverloads) := by
  intro text table
  refine ⟨marked_iff, fun hclose => marked_iff.2 fun name os hos hlen => ?_, ?_⟩
  · have hname : ∀ c ∈ name.toList, isWord c := isWord_of_get? hos
    exact Nat.le_trans (hclose name os hos hlen) (h.countP_le_occurrences hname)
  · intro hmarked c hc
    refine ScriptClass.picksOverloads_of_marked ?_
    rwa [hc]

/-- Three setters, the second one with a blank before its parameters. -/
def setters : List Char :=
  "void set(int x);\nvoid set (float y); // other\nvoid set(double z = 1);\n".toList

/-- All three are marked. -/
theorem setters_marked :
    let before := "class Foo \x7b\n".toList
    let after := "\x7d;\n".toList
    let table := (methodsOf "Foo" setters (byteLength before) (before ++ setters ++ after)).1
    IsSlice before setters after ∧ (table.get? "set").map (·.length) = some 3 ∧
      table.OverloadsMarked := by
  intro before after table
  have hslice : IsSlice before setters after := ⟨rfl, by decide, .inl (by decide)⟩
  have hkeys : table.keys = ["set"] := rfl
  have hthree : (table.get? "set").map (·.length) = some 3 := rfl
  have hclose : (inclusiveLines (stripComments setters)).countP (fun line =>
      declaresClosely "set".toList (lineCode line)) = 2 := rfl
  refine ⟨hslice, hthree, (overloadsMarked_iff hslice).2.1 fun name os hos _ => ?_⟩
  have hname : name ∈ table.keys := by
    rw [← Table.contains_iff, Table.contains]
    exact Option.isSome_of_eq_some hos
  rw [hkeys, List.mem_singleton] at hname
  rw [hname, hclose]

/-- Two setters, both with a blank before their parameters. -/
def spacedSetters : List Char := "void set (int x);\nvoid set (float y);\n".toList

/-- Neither is marked, and the routine of their class takes the bare address of both. -/
theorem spacedSetters_unmarked :
    let table := (methodsOf "Foo" spacedSetters 0 spacedSetters).1
    IsSlice [] spacedSetters [] ∧ ¬ table.OverloadsMarked ∧
      ∃ os, table.get? "set" = some os ∧ os.length = 2 ∧
        ∀ o ∈ os, o.isOverloaded = false ∧ o.callable "Foo" "set" = address "Foo" "set" := by
  intro table
  have hslice : IsSlice [] spacedSetters [] := ⟨rfl, by decide, .inr rfl⟩
  obtain ⟨os, hos, hlen, hunmarked⟩ : ∃ os, table.get? "set" = some os ∧ os.length = 2 ∧
      ∀ o ∈ os, o.isOverloaded = false ∧ o.callable "Foo" "set" = address "Foo" "set" :=
    ⟨_, rfl, rfl, by decide⟩
  refine ⟨hslice, fun hmarked => ?_, os, hos, hlen, hunmarked⟩
  obtain ⟨o, ho⟩ := List.exists_mem_of_length_pos (hlen ▸ Nat.zero_lt_two)
  have hmark := hmarked "set" os hos (Nat.le_of_eq hlen.symm) o ho
  rw [(hunmarked o ho).1] at hmark
  cases hmark

end Header

end ChaiBind
