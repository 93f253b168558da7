import ChaiBind.Proofs.Header.LineEnds
import ChaiBind.Proofs.Text.MovedPlaces

/-!
# Names in a header with other line endings

The namespaces of a header stay the same when its newlines get carriage returns
(`namespaceOf_withReturns`): none is opened at a line ending, and between the words of an
opening a carriage return is a blank like its newline. Class declarations move with the
lines they stand on (`classDeclarations_withReturns`), and so a place has the same owner
(`ownerName_withReturns`).
-/

namespace ChaiBind.Header

open Text

/-! ## Namespaces -/

theorem takeQualifiers_withReturns (n : Nat) (cs : List Char) :
    takeQualifiers n (withReturns cs) =
      ((takeQualifiers n cs).1, withReturns (takeQualifiers n cs).2) := by
  induction n generalizing cs with
  | zero => rfl
  | succ n ih =>
    rw [takeQualifiers_succ, takeQualifiers_succ, isPrefixOf?_withReturns (by decide)]
    cases "::".toList.isPrefixOf? cs with
    | none => rfl
    | some ds =>
      rw [Option.map_some, Option.bind_some, Option.bind_some, takeIdentifier_withReturns]
      cases takeIdentifier ds with
      | none => rfl
      | some p => simp only [Option.map_some, ih]

theorem takeNameChain_withReturns (cs : List Char) :
    takeNameChain (withReturns cs) = (takeNameChain cs).map fun p => (p.1, withReturns p.2) := by
  rw [takeNameChain, takeNameChain, takeIdentifier_withReturns]
  cases takeIdentifier cs with
  | none => rfl
  | some p =>
    simp only [Option.map_some, takeQualifiers_withReturns, length_withReturns,
      takeQualifiers_add (Nat.le_refl _)]

theorem namespaceOpening?_withReturns {before before' : Option Char}
    (h : before'.any isWord = before.any isWord) (offset offset' : Nat) (cs : List Char) :
    namespaceOpening? ⟨before', offset', withReturns cs⟩ =
      namespaceOpening? ⟨before, offset, cs⟩ := by
  rw [namespaceOpening?, namespaceOpening?]
  dsimp only
  rw [h, isPrefixOf?_withReturns (by decide)]
  cases before.any isWord with
  | true => rfl
  | false =>
    cases "namespace".toList.isPrefixOf? cs with
    | none => rfl
    | some rest =>
      have hblank : isBlank '\r' = isBlank '\n' := rfl
      simp only [Option.map_some, Option.bind_eq_bind, Option.bind_some,
        any_head?_withReturns hblank, trimStart_withReturns, takeNameChain_withReturns]
      cases rest.head?.any isBlank with
      | false => rfl
      | true =>
        cases takeNameChain (trimStart rest) with
        | none => rfl
        | some q =>
          have hbrace : '{' ≠ '\n' ∧ '{' ≠ '\r' := by decide
          simp only [Option.map_some, Option.bind_some, trimStart_withReturns,
            head?_withReturns_eq_some hbrace]

/-- No opening starts at a line ending. -/
theorem namespaceOpening?_eq_none {p : Cursor} (h : p.rest.head? ≠ some 'n') :
    namespaceOpening? p = none := by
  have hrest : "namespace".toList.isPrefixOf? p.rest = none := by
    cases hcs : p.rest with
    | nil => rfl
    | cons c cs =>
      have hc : ('n' == c) = false := beq_eq_false_iff_ne.2 fun e => h (by rw [hcs, e]; rfl)
      simp [List.isPrefixOf?, hc]
  rw [namespaceOpening?, hrest]
  cases p.before.any isWord <;> rfl

theorem filterMap_namespaceOpening?_withReturns {before before' : Option Char}
    (h : before'.any isWord = before.any isWord) (offset offset' : Nat) (cs : List Char) :
    (cursorsFrom before' offset' (withReturns cs)).filterMap namespaceOpening? =
      (cursorsFrom before offset cs).filterMap namespaceOpening? := by
  have hfirst := namespaceOpening?_withReturns h offset offset' cs
  induction cs generalizing before before' offset offset' with
  | nil =>
    rw [withReturns_nil] at hfirst
    rw [withReturns_nil, cursorsFrom, cursorsFrom, List.filterMap_cons, List.filterMap_cons, hfirst]
  | cons c cs ih =>
    have hnext : ∀ n n', (cursorsFrom (some c) n' (withReturns cs)).filterMap namespaceOpening? =
        (cursorsFrom (some c) n cs).filterMap namespaceOpening? := fun n n' =>
      ih rfl n n' (namespaceOpening?_withReturns rfl n n' cs)
    by_cases hc : c = '\n'
    · subst hc
      have hnone : ∀ before n d ds, d ≠ 'n' → namespaceOpening? ⟨before, n, d :: ds⟩ = none :=
        fun before n d ds hd => namespaceOpening?_eq_none fun e => hd (Option.some.inj e)
      rw [withReturns_newline, cursorsFrom, cursorsFrom, cursorsFrom,
        List.filterMap_cons_none (hnone _ _ _ _ (by decide)),
        List.filterMap_cons_none (hnone _ _ _ _ (by decide)),
        List.filterMap_cons_none (hnone _ _ _ _ (by decide)), hnext]
    · rw [withReturns_cons hc] at hfirst ⊢
      rw [cursorsFrom, cursorsFrom, List.filterMap_cons, List.filterMap_cons, hfirst, hnext]

theorem namespaceOf_withReturns (cs : List Char) :
    namespaceOf (withReturns cs) = namespaceOf cs := by
  rw [namespaceOf, namespaceOf, namespaceOpenings, namespaceOpenings, cursors, cursors,
    filterMap_namespaceOpening?_withReturns rfl 0]

/-! ## Classes -/

/-- A carriage return closes no attribute. -/
theorem afterAttribute?_return (cs : List Char) :
    afterAttribute? (cs ++ ['\r']) = (afterAttribute? cs).map (· ++ ['\r']) := by
  cases hcs : afterAttribute? cs with
  | some rest => exact afterAttribute?_append_of_some hcs _
  | none =>
    cases hall : afterAttribute? (cs ++ ['\r']) with
    | none => rfl
    | some rest =>
      obtain ⟨w, hw, hsplit⟩ := eq_of_afterAttribute? hall
      rcases List.eq_nil_or_concat rest with rfl | ⟨rest, c, rfl⟩
      · have hassoc : '[' :: '[' :: (w ++ [']', ']']) = '[' :: '[' :: (w ++ [']']) ++ [']'] := by
          simp
        obtain ⟨-, hlast⟩ := List.append_inj' (hsplit.trans hassoc) rfl
        exact absurd hlast (by decide)
      · have hassoc : '[' :: '[' :: (w ++ ']' :: ']' :: rest.concat c) =
            '[' :: '[' :: (w ++ ']' :: ']' :: rest) ++ [c] := by simp
        obtain ⟨rfl, -⟩ := List.append_inj' (hsplit.trans hassoc) rfl
        rw [afterAttribute?_eq hw] at hcs
        cases hcs

theorem dropSpaces_return (cs : List Char) :
    dropSpaces (cs ++ ['\r']) = dropSpaces cs ++ ['\r'] := by
  rw [Marker.dropSpaces_append]
  split
  · rename_i hnil
    rw [hnil]
    rfl
  · rfl

theorem skipAttributes_return {n : Nat} {cs : List Char} (hn : cs.length ≤ n) (m : Nat) :
    skipAttributes (n + m) (cs ++ ['\r']) = skipAttributes n cs ++ ['\r'] := by
  induction n generalizing cs with
  | zero =>
    obtain rfl : cs = [] := List.length_eq_zero_iff.1 (Nat.le_zero.1 hn)
    exact skipAttributes_of_none rfl _
  | succ n ih =>
    have hreturn := afterAttribute?_return cs
    cases hcs : afterAttribute? cs with
    | none =>
      rw [hcs] at hreturn
      rw [skipAttributes_of_none hreturn, skipAttributes_of_none hcs]
    | some rest =>
      have hlength : (dropSpaces rest).length ≤ n := by
        have hle := (List.dropWhile_suffix isSpaceOrTab (l := rest)).length_le
        have hlt := length_lt_of_afterAttribute? hcs
        rw [dropSpaces]
        omega
      rw [hcs, Option.map_some] at hreturn
      rw [Nat.succ_add, skipAttributes, skipAttributes, hreturn, hcs]
      dsimp only
      rw [dropSpaces_return]
      exact ih hlength

theorem nameBehindClass?_return (cs : List Char) :
    nameBehindClass? (cs ++ ['\r']) = nameBehindClass? cs := by
  by_cases hnil : cs = []
  · subst hnil
    rfl
  have hhead : (cs ++ ['\r']).head? = cs.head? := List.head?_append_of_ne_nil cs hnil
  have hlength : (dropSpaces cs).length ≤ cs.length :=
    (List.dropWhile_suffix isSpaceOrTab).length_le
  rw [nameBehindClass?, nameBehindClass?, hhead, List.length_append, dropSpaces_return,
    skipAttributes_return hlength]
  generalize skipAttributes cs.length (dropSpaces cs) = rest
  have htake : takeIdentifier (rest ++ ['\r']) =
      (takeIdentifier rest).map fun p => (p.1, p.2 ++ ['\r']) := by
    by_cases hrest : rest = []
    · subst hrest
      rfl
    · exact takeIdentifier_append_of_head hrest rfl
  rw [htake]
  cases takeIdentifier rest with
  | none => rfl
  | some p => simp

/-- A line declares the same class with a carriage return at its end. -/
theorem declaredName?_return (line : List Char) :
    declaredName? (line ++ ['\r']) = declaredName? line := by
  have hclass : ∀ d ∈ ['\r'].head?, d ∉ "class".toList := by decide
  rw [declaredName?_eq, declaredName?_eq, dropSpaces_return, Marker.isPrefixOf?_append hclass]
  cases "class".toList.isPrefixOf? (dropSpaces line) with
  | none => rfl
  | some rest => exact nameBehindClass?_return rest

/-- The declaration in the text with other line endings. -/
def ClassDeclaration.move (cs : List Char) (d : ClassDeclaration) : ClassDeclaration :=
  { d with offset := moved cs d.offset }

theorem classDeclarations_withReturns (cs : List Char) :
    classDeclarations (withReturns cs) = (classDeclarations cs).map (ClassDeclaration.move cs) := by
  induction cs using linesInduction with
  | last line hline =>
    rw [withReturns_of_notMem hline, classDeclarations_line hline]
    cases declaredName? line with
    | none => rfl
    | some name => simp [ClassDeclaration.move]
  | cons line rest hline ih =>
    have hmoved : ∀ offset, moved (line ++ '\n' :: rest) (byteLength line + 1 + offset) =
        byteLength (line ++ ['\r']) + 1 + moved rest offset := by
      intro offset
      have hsize : '\n'.utf8Size = 1 ∧ '\r'.utf8Size = 1 := ⟨rfl, rfl⟩
      have h := moved_append (line ++ ['\n']) rest offset
      rw [withReturns_append, withReturns_of_notMem hline, List.append_assoc,
        List.singleton_append] at h
      simp only [withReturns_newline, withReturns_nil, byteLength_append, byteLength_cons,
        byteLength_nil, hsize] at h ⊢
      exact h
    rw [withReturns_append_newline hline, classDeclarations_append_newline,
      classDeclarations_append_newline, ih, classDeclarations_line (newline_notMem_return hline),
      classDeclarations_line hline, declaredName?_return, List.map_append, List.map_map,
      List.map_map]
    congr 1
    · cases declaredName? line with
      | none => rfl
      | some name => simp [ClassDeclaration.move]
    · refine List.map_congr_left fun d _ => ?_
      simp only [Function.comp_apply, ClassDeclaration.shift, ClassDeclaration.move, hmoved]

theorem owningClass?_withReturns (cs : List Char) (decls : List ClassDeclaration) (offset : Nat) :
    owningClass? (decls.map (ClassDeclaration.move cs)) (moved cs offset) =
      (owningClass? decls offset).map (ClassDeclaration.move cs) := by
  rw [owningClass?, ← List.map_reverse, List.find?_map, owningClass?]
  simp only [Function.comp_def, ClassDeclaration.move, (strictMono_moved cs).lt_iff_lt]

theorem ownerName_withReturns (cs : List Char) (offset : Nat) :
    ownerName (withReturns cs) (moved cs offset) = ownerName cs offset := by
  rw [ownerName, classDeclarations_withReturns, owningClass?_withReturns, Option.map_map, ownerName]
  rfl

end ChaiBind.Header
