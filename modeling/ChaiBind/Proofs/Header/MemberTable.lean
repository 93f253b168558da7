import ChaiBind.Proofs.Header.MemberLines
import ChaiBind.Proofs.Text.Parts

/-!
# The table of a region

The table of methods is made of the members that the lines of a region declare
once comments are gone, in order: where these lines stand, and what else they say,
is not in it.

* `fst_methodsOf`: the table of a region from its lines without comments.
* `get?_tableOf`: the overloads of a name are the members of that name in order.
* `exists_signature_of_member`: a member comes from a signature.
-/

namespace ChaiBind.Header

open Text

/-- The member that a reading adds to the table. -/
def LineReading.member? : LineReading → Option (String × Overload)
  | .member name o => some (name, o)
  | _ => none

/-- The finding of a reading. -/
def LineReading.finding? : LineReading → Option Finding
  | .reported f => some f
  | _ => none

/-- The members that lines without comments declare, from a depth of braces on. -/
def membersFrom (className : String) (code : List Char) :
    Nat → List (List Char) → List (String × Overload)
  | _, [] => []
  | depth, line :: lines =>
    (if depth = 0 then (readLine className code (lineCode line)).member?.toList else []) ++
      membersFrom className code (depthAfter depth (lineCode line)) lines

/-- The table of some members. -/
def tableOf (members : List (String × Overload)) : MethodTable :=
  members.foldl (fun t m => t.push m.1 m.2) Table.empty

section

variable {className : String} {code : List Char}

theorem membersOf_eq_tableOf (rs : List (Nat × LineReading)) :
    membersOf rs = tableOf (rs.filterMap (·.2.member?)) := by
  induction rs using List.reverseRecOn with
  | nil => rfl
  | append_singleton rs r ih =>
    rw [membersOf_append_singleton, List.filterMap_append, tableOf, List.foldl_append, ← tableOf,
      ← ih]
    obtain ⟨offset, reading⟩ := r
    cases reading <;> rfl

theorem filterMap_readLines (offset depth : Nat) (lines : List (List Char × List Char)) :
    (readLines className code offset depth lines).filterMap (·.2.member?) =
      membersFrom className code depth (lines.map Prod.snd) := by
  induction lines generalizing offset depth with
  | nil => rfl
  | cons line lines ih =>
    rw [readLines_cons, List.filterMap_cons, List.map_cons, membersFrom, ih, readingAt]
    by_cases hdepth : depth = 0
    · rw [if_pos hdepth, if_pos hdepth]
      cases (readLine className code (lineCode line.2)).member? <;> rfl
    · rw [if_neg hdepth, if_neg hdepth]
      rfl

/-- A region has a line for every line that is left of it. -/
theorem map_snd_pairedLines (body : List Char) :
    (pairedLines body).map Prod.snd = inclusiveLines (stripComments body) :=
  List.map_snd_zip (length_inclusiveLines_stripFrom_le .start body)

/-- The table of a region depends on what its lines are without comments, and on how often each name
is mentioned in its file. -/
theorem fst_methodsOf (body : List Char) (offset : Nat) (text : List Char) :
    (methodsOf className body offset text).1 =
      tableOf (membersFrom className (countedCode text) 0 (inclusiveLines (stripComments body))) := by
  rw [methodsOf, readBody, membersOf_eq_tableOf, filterMap_readLines, map_snd_pairedLines]

theorem membersFrom_append (depth : Nat) (xs ys : List (List Char)) :
    membersFrom className code depth (xs ++ ys) =
      membersFrom className code depth xs ++ membersFrom className code
        (xs.foldl (fun depth line => depthAfter depth (lineCode line)) depth) ys := by
  induction xs generalizing depth with
  | nil => rfl
  | cons x xs ih => rw [List.cons_append, membersFrom, ih, membersFrom, List.append_assoc,
      List.foldl_cons]

theorem exists_line_of_mem_membersFrom {depth : Nat} {lines : List (List Char)}
    {m : String × Overload} (h : m ∈ membersFrom className code depth lines) :
    ∃ line ∈ lines, readLine className code (lineCode line) = .member m.1 m.2 := by
  induction lines generalizing depth with
  | nil => cases h
  | cons line lines ih =>
    rw [membersFrom, List.mem_append] at h
    rcases h with h | h
    · refine ⟨line, List.mem_cons_self, ?_⟩
      split at h
      · cases hreading : readLine className code (lineCode line) with
        | member name o =>
          rw [hreading] at h
          obtain rfl := List.mem_singleton.1 h
          rfl
        | ignored | reported =>
          rw [hreading] at h
          cases h
      · cases h
    · obtain ⟨line', hline', hreading⟩ := ih h
      exact ⟨line', List.mem_cons_of_mem line hline', hreading⟩

/-! ## Names in the table -/

/-- The overloads of a name among some members, in order. -/
def overloadsNamed (name : String) (members : List (String × Overload)) : List Overload :=
  (members.filter fun m => m.1 = name).map Prod.snd

theorem overloadsNamed_append (name : String) (xs ys : List (String × Overload)) :
    overloadsNamed name (xs ++ ys) = overloadsNamed name xs ++ overloadsNamed name ys := by
  rw [overloadsNamed, List.filter_append, List.map_append, overloadsNamed, overloadsNamed]

theorem get?_tableOf (members : List (String × Overload)) (name : String) :
    (tableOf members).get? name =
      if overloadsNamed name members = [] then none else some (overloadsNamed name members) := by
  induction members using List.reverseRecOn with
  | nil => rfl
  | append_singleton members m ih =>
    have hpush : tableOf (members ++ [m]) = (tableOf members).push m.1 m.2 := by
      rw [tableOf, List.foldl_append]
      rfl
    rw [hpush, MethodTable.get?_push, overloadsNamed_append]
    by_cases hname : m.1 = name
    · have hone : overloadsNamed name [m] = [m.2] := by simp [overloadsNamed, hname]
      subst hname
      rw [if_pos rfl, hone, if_neg (by simp), ih]
      split
      · rename_i hnil
        rw [hnil]
        rfl
      · rfl
    · have hnone : overloadsNamed name [m] = [] := by simp [overloadsNamed, hname]
      rw [if_neg (Ne.symm hname), hnone, List.append_nil, ih]

/-! ## Members and signatures -/

/-- A member comes from the signature of its line, which takes nothing away. -/
theorem exists_signature_of_member {line : List Char} {name : String} {o : Overload}
    (h : readLine className code line = .member name o) :
    isDeleted line = false ∧ ∃ s, signature? line = some s ∧
      readSignature className code s = .member name o ∧ s.name = name.toList ∧ o = s.overload code := by
  rw [readLine] at h
  split at h
  · cases h
  · rename_i hkept
    rw [Bool.or_eq_true, not_or, Bool.not_eq_true, Bool.not_eq_true] at hkept
    refine ⟨hkept.2, ?_⟩
    split at h
    · cases h
    · split at h
      · rename_i s hs
        refine ⟨s, hs, h, ?_⟩
        rw [readSignature] at h
        split at h
        · cases h
        · split at h
          · cases h
          · cases h
            exact ⟨String.toList_ofList.symm, rfl⟩
      · split at h <;> cases h

end

end ChaiBind.Header
