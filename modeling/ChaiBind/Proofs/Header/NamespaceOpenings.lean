import ChaiBind.Header.Namespace
import ChaiBind.Proofs.Header.MarkerSites
import Mathlib.Data.Option.Basic

/-!
# Namespace openings around a comment

An opening is read over blanks and newlines, but over no comment: one that starts
before a comment is only found if it is complete there
(`namespaceOpening?_lineComment`). So the namespace of a header is the same with a
comment at the end of a line if no opening goes on behind that line and none starts
in the comment (`namespaceOpenings_comment`).
-/

namespace ChaiBind.Header

open Text

section Comment

variable {c : List Char}

theorem takeQualifiers_of_ne {cs : List Char} (h : ∀ ds, cs ≠ ':' :: ':' :: ds) (n : Nat) :
    takeQualifiers n cs = ([], cs) := by
  cases n with
  | zero => rfl
  | succ n =>
    rw [takeQualifiers]
    exact fun ds hds => h ds hds

theorem takeQualifiers_succ (n : Nat) (cs : List Char) :
    takeQualifiers (n + 1) cs =
      match ("::".toList.isPrefixOf? cs).bind takeIdentifier with
      | some p => (':' :: ':' :: p.1 ++ (takeQualifiers n p.2).1, (takeQualifiers n p.2).2)
      | none => ([], cs) := by
  cases hcs : "::".toList.isPrefixOf? cs with
  | some ds =>
    obtain rfl := List.isPrefixOf?_eq_some_iff_append_eq.1 hcs
    show takeQualifiers (n + 1) (':' :: ':' :: ds) = _
    rw [takeQualifiers, Option.bind_some]
    cases takeIdentifier ds <;> rfl
  | none =>
    refine takeQualifiers_of_ne (fun ds hds => ?_) (n + 1)
    rw [hds] at hcs
    cases hcs

/-- More steps than characters find nothing more. -/
theorem takeQualifiers_add {n : Nat} {cs : List Char} (hn : cs.length ≤ n) (m : Nat) :
    takeQualifiers (n + m) cs = takeQualifiers n cs := by
  induction n generalizing cs with
  | zero =>
    obtain rfl : cs = [] := List.length_eq_zero_iff.1 (Nat.le_zero.1 hn)
    cases m <;> rfl
  | succ n ih =>
    rw [Nat.succ_add, takeQualifiers_succ, takeQualifiers_succ]
    cases hcs : ("::".toList.isPrefixOf? cs).bind takeIdentifier with
    | none => rfl
    | some p =>
      obtain ⟨ds, hds, hp⟩ := Option.bind_eq_some_iff.1 hcs
      have hlength : p.2.length ≤ n := by
        rw [← List.isPrefixOf?_eq_some_iff_append_eq.1 hds, ← append_of_takeIdentifier hp,
          List.length_append, List.length_append] at hn
        have hcolons : "::".toList.length = 2 := rfl
        omega
      simp only [ih hlength]

theorem takeQualifiers_lineComment {n : Nat} {cs : List Char} (hn : cs.length ≤ n) (m : Nat) :
    takeQualifiers (n + m) (cs ++ lineComment c) =
      ((takeQualifiers n cs).1, (takeQualifiers n cs).2 ++ lineComment c) := by
  induction n generalizing cs with
  | zero =>
    obtain rfl : cs = [] := List.length_eq_zero_iff.1 (Nat.le_zero.1 hn)
    cases m <;> rfl
  | succ n ih =>
    by_cases hcolons : ∃ ds, cs = ':' :: ':' :: ds
    · obtain ⟨ds, rfl⟩ := hcolons
      rw [Nat.succ_add, List.cons_append, List.cons_append, takeQualifiers, takeQualifiers,
        takeIdentifier_lineComment]
      cases hds : takeIdentifier ds with
      | none => rfl
      | some p =>
        have hlength : p.2.length ≤ n := by
          have hsplit := congrArg List.length (append_of_takeIdentifier hds)
          simp only [List.length_append, List.length_cons] at hsplit hn
          omega
        simp only [Option.map_some, ih hlength]
    · have hne : ∀ ds, cs ≠ ':' :: ':' :: ds := fun ds h => hcolons ⟨ds, h⟩
      have hcomment : ∀ ds, cs ++ lineComment c ≠ ':' :: ':' :: ds := by
        intro ds h
        rcases cs with _ | ⟨d, _ | ⟨e, es⟩⟩
        · cases h
        · cases h
        · cases h
          exact hne es rfl
      rw [takeQualifiers_of_ne hcomment, takeQualifiers_of_ne hne]

theorem takeNameChain_lineComment {cs : List Char} (hne : cs ≠ []) :
    takeNameChain (cs ++ lineComment c) =
      (takeNameChain cs).map fun p => (p.1, p.2 ++ lineComment c) := by
  rw [takeNameChain, takeNameChain, takeIdentifier_append_of_head hne rfl]
  cases takeIdentifier cs with
  | none => rfl
  | some p =>
    have hmore := takeQualifiers_lineComment (c := c) (Nat.le_refl p.2.length) (lineComment c).length
    simp only [Option.map_some, List.length_append, hmore]

/-- An opening in front of a comment is complete there. -/
theorem namespaceOpening?_lineComment (p : Cursor) :
    namespaceOpening? (p.extend (lineComment c)) = namespaceOpening? p := by
  have hword : ∀ d ∈ (lineComment c).head?, d ∉ "namespace".toList := by
    intro d hd
    obtain rfl := Option.some.inj hd
    decide
  have htrim : trimStart (lineComment c) = '/' :: '/' :: ' ' :: c := rfl
  rw [namespaceOpening?, namespaceOpening?, Cursor.extend, Marker.isPrefixOf?_append hword]
  cases p.before.any isWord with
  | true => rfl
  | false =>
    cases hrest : "namespace".toList.isPrefixOf? p.rest with
    | none => rfl
    | some rest =>
      simp only [Option.map_some, Option.bind_eq_bind, Option.bind_some, trimStart_append, htrim]
      by_cases hnil : rest = []
      · subst hnil
        rfl
      have hhead : (rest ++ lineComment c).head? = rest.head? := List.head?_append_of_ne_nil rest hnil
      rw [hhead]
      cases rest.head?.any isBlank with
      | false => rfl
      | true =>
        by_cases hblank : trimStart rest = []
        · rw [if_pos hblank, hblank]
          rfl
        · rw [if_neg hblank, takeNameChain_lineComment hblank]
          cases takeNameChain (trimStart rest) with
          | none => rfl
          | some q =>
            have hbrace : (trimStart (q.2 ++ lineComment c)).head? = some '{' ↔
                (trimStart q.2).head? = some '{' := by
              rw [trimStart_append, htrim]
              cases trimStart q.2 with
              | nil => simp
              | cons d ds => rfl
            simp only [Option.map_some, Option.bind_some, hbrace]

end Comment

/-! ## Openings on both sides of a break -/

/-- The openings that start in a text, with another text behind it. -/
def openingsBefore (u v : List Char) : List (List Char) :=
  (startsFrom none 0 u).filterMap fun p => namespaceOpening? (p.extend v)

theorem namespaceOpenings_eq (u : List Char) : namespaceOpenings u = openingsBefore u [] := by
  have hend : ∀ before offset, namespaceOpening? ⟨before, offset, []⟩ = none := by
    intro before offset
    rw [namespaceOpening?]
    cases before.any isWord <;> rfl
  have hextend : ∀ p : Cursor, p.extend [] = p := fun p => by simp [Cursor.extend]
  rw [namespaceOpenings, cursors, cursorsFrom_eq, List.filterMap_append, openingsBefore]
  simp [hend, hextend]

theorem filterMap_namespaceOpening?_offset (before : Option Char) (offset offset' : Nat)
    (cs : List Char) :
    (cursorsFrom before offset cs).filterMap namespaceOpening? =
      (cursorsFrom before offset' cs).filterMap namespaceOpening? := by
  induction cs generalizing before offset offset' with
  | nil => rfl
  | cons c cs ih =>
    rw [cursorsFrom, cursorsFrom, List.filterMap_cons, List.filterMap_cons,
      ih (some c) _ (offset' + c.utf8Size)]
    rfl

/-- Of the character before a text it matters for the openings only whether it belongs to a word, and
not even that if the text does not start with one. -/
theorem filterMap_namespaceOpening?_cursorsFrom {before : Option Char} {cs : List Char}
    (h : before.any isWord = false ∨ cs.head? ≠ some 'n') (offset : Nat) :
    (cursorsFrom before offset cs).filterMap namespaceOpening? = namespaceOpenings cs := by
  have hfirst : ∀ offset', namespaceOpening? ⟨before, offset, cs⟩ =
      namespaceOpening? ⟨none, offset', cs⟩ := by
    intro offset'
    rw [namespaceOpening?, namespaceOpening?]
    rcases h with h | h
    · rw [h]
      rfl
    · have hstarts : "namespace".toList.isPrefixOf? cs = none := by
        cases cs with
        | nil => rfl
        | cons c cs =>
          have hc : ('n' == c) = false := beq_eq_false_iff_ne.2 fun e => h (e ▸ rfl)
          simp [List.isPrefixOf?, hc]
      simp only [hstarts]
      cases before.any isWord <;> rfl
  rw [namespaceOpenings, cursors]
  cases cs with
  | nil =>
    rw [cursorsFrom, cursorsFrom, List.filterMap_cons, List.filterMap_cons, hfirst 0]
  | cons c cs =>
    rw [cursorsFrom, cursorsFrom, List.filterMap_cons, List.filterMap_cons, hfirst 0,
      filterMap_namespaceOpening?_offset]

theorem namespaceOpenings_append {v : List Char} (hv : v.head? ≠ some 'n') (u : List Char) :
    namespaceOpenings (u ++ v) = openingsBefore u v ++ namespaceOpenings v := by
  rw [namespaceOpenings, cursors, cursorsFrom_append, List.filterMap_append,
    filterMap_namespaceOpening?_cursorsFrom (.inr hv), List.filterMap_map]
  rfl

/-- Nothing opens at the signs of a comment. -/
theorem namespaceOpenings_lineComment (c : List Char) :
    namespaceOpenings (lineComment c) = namespaceOpenings c := by
  have hblank : (some ' ').any isWord = false ∨ c.head? ≠ some 'n' := .inl rfl
  rw [← filterMap_namespaceOpening?_cursorsFrom hblank 4]
  rfl

/-- A comment at the end of a line leaves the openings of a header alone, if none goes on behind
the line and none starts in the comment. -/
theorem namespaceOpenings_comment {u c rest : List Char} (hrest : StartsLine rest)
    (hover : openingsBefore u rest = namespaceOpenings u) (hin : openingsBefore c rest = []) :
    namespaceOpenings (u ++ (lineComment c ++ rest)) = namespaceOpenings (u ++ rest) := by
  have hhead : rest.head? ≠ some 'n' := by
    rcases hrest.eq_nil_or with rfl | ⟨ds, rfl⟩ <;> simp
  have happend : lineComment c ++ rest = lineComment (c ++ rest) := rfl
  have hbefore : openingsBefore u (lineComment (c ++ rest)) = namespaceOpenings u := by
    have hextend : ∀ p : Cursor, p.extend [] = p := fun p => by simp [Cursor.extend]
    simp only [namespaceOpenings_eq, openingsBefore, namespaceOpening?_lineComment, hextend]
  rw [happend, namespaceOpenings_append (by simp [lineComment]), hbefore,
    namespaceOpenings_lineComment, namespaceOpenings_append hhead, hin, List.nil_append,
    namespaceOpenings_append hhead, hover]

end ChaiBind.Header
