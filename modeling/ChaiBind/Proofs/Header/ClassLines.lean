import ChaiBind.Proofs.Header.MarkerSites
import ChaiBind.Proofs.Header.ReturnTypes
import Mathlib.Data.Option.Basic

/-!
# Lines that declare classes

The classes of a text are declared line by line, so that a text which is broken
between two lines declares those of its two parts (`classDeclarations_append`). A
comment changes what its line declares only by a semicolon, which makes a
declaration one of a class defined elsewhere, or by closing an attribute
(`declaredName?_lineComment`).

* `owningClass?_append`: the class that owns a place behind a break.
* `owningClass?_append_of_le`: the class that owns a place before one.
-/

namespace ChaiBind.Header

open Text

namespace ClassDeclaration

/-- The declaration in a text with some bytes more before it. -/
def shift (n : Nat) (d : ClassDeclaration) : ClassDeclaration := { d with offset := n + d.offset }

end ClassDeclaration

/-! ## Declarations on both sides of a break -/

/-- The bytes of lines with a newline each. -/
def linesBytes (lines : List (List Char)) : Nat := sumLines (fun line => byteLength line + 1) lines

theorem placeLines_append (offset : Nat) (xs ys : List (List Char)) :
    placeLines offset (xs ++ ys) = placeLines offset xs ++ placeLines (offset + linesBytes xs) ys := by
  induction xs generalizing offset with
  | nil => rfl
  | cons x xs ih =>
    rw [List.cons_append, placeLines, ih, placeLines, List.cons_append, linesBytes, linesBytes,
      sumLines]
    simp only [Nat.add_assoc]

theorem linesBytes_splitLines (u : List Char) : linesBytes (splitLines u) = byteLength u + 1 := by
  induction u with
  | nil => rfl
  | cons c u ih =>
    rw [splitLines] at *
    rw [pieces]
    split
    · rename_i hc
      obtain rfl := isNewline_iff.1 hc
      rw [linesBytes, sumLines, ← linesBytes, ih, byteLength_cons]
      have hsize : '\n'.utf8Size = 1 := rfl
      simp only [byteLength_nil, hsize]
      omega
    · cases hu : pieces isNewline u with
      | nil =>
        have hlength := length_pieces isNewline u
        simp [hu] at hlength
      | cons p ps =>
        rw [hu, linesBytes, sumLines] at ih
        rw [consHead, linesBytes, sumLines, byteLength_cons, byteLength_cons]
        omega

/-- The declarations that lines make from an offset on. -/
def declarationsFrom (offset : Nat) (lines : List (List Char)) : List ClassDeclaration :=
  (placeLines offset lines).filterMap fun (offset, line) =>
    (declaredName? line).map fun name => ⟨String.ofList name, offset⟩

theorem classDeclarations_eq (cs : List Char) :
    classDeclarations cs = declarationsFrom 0 (splitLines cs) := rfl

theorem declarationsFrom_cons (offset : Nat) (line : List Char) (lines : List (List Char)) :
    declarationsFrom offset (line :: lines) =
      ((declaredName? line).map fun name => ⟨String.ofList name, offset⟩).toList ++
        declarationsFrom (offset + byteLength line + 1) lines := by
  rw [declarationsFrom, placeLines, List.filterMap_cons]
  dsimp only
  cases declaredName? line <;> rfl

theorem declarationsFrom_add (n offset : Nat) (lines : List (List Char)) :
    declarationsFrom (n + offset) lines =
      (declarationsFrom offset lines).map (ClassDeclaration.shift n) := by
  induction lines generalizing offset with
  | nil => rfl
  | cons line lines ih =>
    rw [declarationsFrom_cons, declarationsFrom_cons, List.map_append, ← ih, Nat.add_assoc n,
      Nat.add_assoc n]
    cases declaredName? line <;> rfl

theorem offset_lt_of_mem_declarationsFrom {offset : Nat} {lines : List (List Char)}
    {d : ClassDeclaration} (h : d ∈ declarationsFrom offset lines) :
    d.offset < offset + linesBytes lines := by
  induction lines generalizing offset with
  | nil => cases h
  | cons line lines ih =>
    have hbytes : linesBytes (line :: lines) = byteLength line + 1 + linesBytes lines := rfl
    rw [declarationsFrom_cons, List.mem_append] at h
    rcases h with h | h
    · obtain ⟨name, -, rfl⟩ := Option.map_eq_some_iff.1 (Option.mem_toList.1 h)
      simp only [hbytes]
      omega
    · have hlt := ih h
      omega

theorem classDeclarations_append_newline (u v : List Char) :
    classDeclarations (u ++ '\n' :: v) =
      classDeclarations u ++
        (classDeclarations v).map (ClassDeclaration.shift (byteLength u + 1)) := by
  rw [classDeclarations_eq, splitLines_append_newline, declarationsFrom, placeLines_append,
    List.filterMap_append, ← declarationsFrom, ← declarationsFrom, linesBytes_splitLines,
    Nat.zero_add, ← Nat.add_zero (byteLength u + 1), declarationsFrom_add, ← classDeclarations_eq,
    ← classDeclarations_eq]

theorem ClassDeclaration.shift_zero : ClassDeclaration.shift 0 = id := by
  funext d
  simp [ClassDeclaration.shift]

theorem ClassDeclaration.shift_comp_shift (m n : Nat) :
    ClassDeclaration.shift m ∘ ClassDeclaration.shift n = ClassDeclaration.shift (m + n) := by
  funext d
  simp [ClassDeclaration.shift, Nat.add_assoc]

/-- The class declarations of a text that is broken between two lines. -/
theorem classDeclarations_append {u v : List Char} (h : EndsLine u ∨ StartsLine v) :
    classDeclarations (u ++ v) =
      classDeclarations u ++ (classDeclarations v).map (ClassDeclaration.shift (byteLength u)) := by
  have hnil : classDeclarations [] = [] := rfl
  rcases h with hu | hv
  · rcases hu.eq_nil_or with rfl | ⟨u, rfl⟩
    · rw [hnil, byteLength_nil, ClassDeclaration.shift_zero, List.map_id]
      rfl
    · have hsize : '\n'.utf8Size = 1 := rfl
      rw [List.append_assoc, List.singleton_append, classDeclarations_append_newline,
        classDeclarations_append_newline u [], hnil, List.map_nil, List.append_nil, byteLength_append,
        byteLength_cons, byteLength_nil, hsize]
  · rcases hv.eq_nil_or with rfl | ⟨v, rfl⟩
    · rw [hnil, List.map_nil, List.append_nil, List.append_nil]
    · have hstart := classDeclarations_append_newline [] v
      rw [List.nil_append, hnil, List.nil_append] at hstart
      rw [classDeclarations_append_newline, hstart, List.map_map,
        ClassDeclaration.shift_comp_shift, byteLength_nil, Nat.zero_add]

/-- A single line. -/
theorem classDeclarations_line {line : List Char} (h : '\n' ∉ line) :
    classDeclarations line =
      ((declaredName? line).map fun name => ⟨String.ofList name, 0⟩).toList := by
  have hone : splitLines line = [line] := by
    rw [splitLines]
    induction line with
    | nil => rfl
    | cons c cs ih =>
      obtain ⟨hc, hcs⟩ := not_isNewline_and h
      rw [pieces, if_neg hc, ih hcs]
      rfl
  rw [classDeclarations_eq, hone, declarationsFrom_cons]
  exact List.append_nil _

theorem offset_le_of_mem_classDeclarations {cs : List Char} {d : ClassDeclaration}
    (h : d ∈ classDeclarations cs) : d.offset ≤ byteLength cs := by
  rw [classDeclarations_eq] at h
  have hlt := offset_lt_of_mem_declarationsFrom h
  rw [linesBytes_splitLines] at hlt
  omega

/-! ## A comment behind a declaration -/

theorem ClosesAttributes.of_append {u v : List Char} (h : ClosesAttributes (u ++ v)) :
    ClosesAttributes v := by
  induction u with
  | nil => exact h
  | cons c u ih => exact ih h.2

theorem ClosesAttributes.dropSpaces {cs : List Char} (h : ClosesAttributes cs) :
    ClosesAttributes (dropSpaces cs) := by
  have hsplit : cs.takeWhile isSpaceOrTab ++ Text.dropSpaces cs = cs :=
    List.takeWhile_append_dropWhile
  rw [← hsplit] at h
  exact h.of_append

theorem afterAttribute?_eq {w : List Char} (hw : ']' ∉ w) (rest : List Char) :
    afterAttribute? ('[' :: '[' :: (w ++ ']' :: ']' :: rest)) = some rest := by
  have hdrop : (w ++ ']' :: ']' :: rest).dropWhile (· ≠ ']') = ']' :: ']' :: rest := by
    rw [List.dropWhile_append_of_pos]
    · rfl
    · intro c hc
      simpa using fun e : c = ']' => hw (e ▸ hc)
  rw [afterAttribute?, hdrop]
  rfl

/-- An attribute at the start of a text stays there with more text behind it. -/
theorem afterAttribute?_append_of_some {cs rest : List Char} (h : afterAttribute? cs = some rest)
    (v : List Char) : afterAttribute? (cs ++ v) = some (rest ++ v) := by
  obtain ⟨w, hw, rfl⟩ := eq_of_afterAttribute? h
  have hassoc : '[' :: '[' :: (w ++ ']' :: ']' :: rest) ++ v =
      '[' :: '[' :: (w ++ ']' :: ']' :: (rest ++ v)) := by simp
  rw [hassoc, afterAttribute?_eq hw]

theorem skipAttributes_of_none {cs : List Char} (h : afterAttribute? cs = none) (n : Nat) :
    skipAttributes n cs = cs := by
  cases n with
  | zero => rfl
  | succ n => rw [skipAttributes, h]

section Comment

variable {c : List Char}

/-- A comment opens no attribute, and closes none if it has no bracket. -/
theorem afterAttribute?_lineComment {cs : List Char} (h : ClosesAttributes cs ∨ ']' ∉ c) :
    afterAttribute? (cs ++ lineComment c) = (afterAttribute? cs).map (· ++ lineComment c) := by
  cases hcs : afterAttribute? cs with
  | some rest => exact afterAttribute?_append_of_some hcs _
  | none =>
    cases hall : afterAttribute? (cs ++ lineComment c) with
    | none => rfl
    | some rest =>
      obtain ⟨w, hw, hsplit⟩ := eq_of_afterAttribute? hall
      obtain ⟨cs, rfl, hrest⟩ :=
        exists_of_append_cons_eq (w := ['[', '[']) (by decide) hsplit
      rcases List.append_eq_append_iff.1 hrest with ⟨t, rfl, hclose⟩ | ⟨t, rfl, hclose⟩
      · -- The attribute is closed before the comment.
        rcases t with _ | ⟨d, _ | ⟨e, t⟩⟩
        · cases hclose
        · cases hclose
        · cases hclose
          have hsome := afterAttribute?_eq hw t
          exact absurd (hcs.symm.trans hsome) (by simp)
      · have hcomment : ']' ∈ lineComment c := by
          rw [lineComment, hclose]
          exact List.mem_append_right t List.mem_cons_self
        rcases h with h | h
        · have hmem : ']' ∈ '[' :: cs := h.1 rfl rfl
          refine absurd (List.mem_append_left t ?_) hw
          simpa using hmem
        · exact absurd (by simpa [lineComment] using hcomment) h

theorem dropSpaces_lineComment (cs : List Char) :
    dropSpaces (cs ++ lineComment c) =
      if dropSpaces cs = [] then '/' :: '/' :: ' ' :: c else dropSpaces cs ++ lineComment c :=
  Marker.dropSpaces_append cs (lineComment c)

/-- The name behind attributes is the same with a comment at the end. -/
theorem takeIdentifier_skipAttributes_lineComment {n : Nat} {cs : List Char}
    (hn : (dropSpaces cs).length ≤ n) (h : ClosesAttributes cs ∨ ']' ∉ c) (m : Nat) :
    takeIdentifier (skipAttributes (n + m) (dropSpaces (cs ++ lineComment c))) =
      (takeIdentifier (skipAttributes n (dropSpaces cs))).map
        fun p => (p.1, p.2 ++ lineComment c) := by
  have hcloses : ClosesAttributes (dropSpaces cs) ∨ ']' ∉ c :=
    h.imp_left ClosesAttributes.dropSpaces
  rw [dropSpaces_lineComment]
  generalize dropSpaces cs = cs at hn hcloses
  induction n generalizing cs with
  | zero =>
    obtain rfl : cs = [] := List.length_eq_zero_iff.1 (Nat.le_zero.1 hn)
    rw [if_pos rfl, skipAttributes_of_none rfl]
    rfl
  | succ n ih =>
    by_cases hnil : cs = []
    · subst hnil
      rw [if_pos rfl, skipAttributes_of_none rfl, skipAttributes_of_none rfl]
      rfl
    · rw [if_neg hnil]
      cases hcs : afterAttribute? cs with
      | none =>
        have hnone : afterAttribute? (cs ++ lineComment c) = none := by
          rw [afterAttribute?_lineComment hcloses, hcs]
          rfl
        rw [skipAttributes_of_none hnone, skipAttributes_of_none hcs, takeIdentifier_lineComment]
      | some rest =>
        have hlength : (dropSpaces rest).length ≤ n := by
          have hle := (List.dropWhile_suffix isSpaceOrTab (l := rest)).length_le
          have hlt := length_lt_of_afterAttribute? hcs
          rw [dropSpaces]
          omega
        have hrest : ClosesAttributes (dropSpaces rest) ∨ ']' ∉ c := by
          obtain ⟨w, -, hsplit⟩ := eq_of_afterAttribute? hcs
          refine hcloses.imp_left fun hcs => ClosesAttributes.dropSpaces ?_
          have hassoc : '[' :: '[' :: (w ++ ']' :: ']' :: rest) =
              '[' :: '[' :: (w ++ [']', ']']) ++ rest := by simp
          rw [hsplit, hassoc] at hcs
          exact hcs.of_append
        rw [Nat.succ_add, skipAttributes, afterAttribute?_append_of_some hcs, skipAttributes, hcs]
        dsimp only
        rw [dropSpaces_lineComment]
        exact ih _ hlength hrest

/-- The name behind the word `class`, if the line is no declaration of a class defined elsewhere. -/
def nameBehindClass? (cs : List Char) : Option (List Char) :=
  if cs.head?.any isSpaceOrTab then
    (takeIdentifier (skipAttributes cs.length (dropSpaces cs))).bind fun p =>
      if ';' ∈ p.2 then none else some p.1
  else none

theorem declaredName?_eq (line : List Char) :
    declaredName? line = ("class".toList.isPrefixOf? (dropSpaces line)).bind nameBehindClass? := by
  rw [declaredName?]
  cases "class".toList.isPrefixOf? (dropSpaces line) with
  | none => rfl
  | some rest =>
    simp only [Option.bind_eq_bind, Option.bind_some, nameBehindClass?]
    cases rest.head?.any isSpaceOrTab with
    | false => rfl
    | true =>
      cases takeIdentifier (skipAttributes rest.length (dropSpaces rest)) with
      | none => rfl
      | some p => by_cases hp : ';' ∈ p.2 <;> simp [hp]

theorem nameBehindClass?_lineComment {cs : List Char}
    (hsemicolon : (nameBehindClass? cs).isSome → ';' ∉ c)
    (hattribute : ClosesAttributes cs ∨ ']' ∉ c) :
    nameBehindClass? (cs ++ lineComment c) = nameBehindClass? cs := by
  by_cases hnil : cs = []
  · subst hnil
    have hdrop : dropSpaces (lineComment c) = '/' :: '/' :: ' ' :: c := rfl
    rw [List.nil_append, nameBehindClass?, hdrop, skipAttributes_of_none rfl]
    rfl
  have hhead : (cs ++ lineComment c).head? = cs.head? := List.head?_append_of_ne_nil cs hnil
  have hlength : (dropSpaces cs).length ≤ cs.length :=
    (List.dropWhile_suffix isSpaceOrTab).length_le
  have hname := takeIdentifier_skipAttributes_lineComment hlength hattribute (lineComment c).length
  rw [nameBehindClass?] at hsemicolon
  rw [nameBehindClass?, nameBehindClass?, hhead, List.length_append, hname]
  by_cases hspace : cs.head?.any isSpaceOrTab
  · rw [if_pos hspace] at hsemicolon ⊢
    rw [if_pos hspace]
    cases htake : takeIdentifier (skipAttributes cs.length (dropSpaces cs)) with
    | none => rfl
    | some p =>
      rw [htake, Option.bind_some] at hsemicolon
      rw [Option.map_some, Option.bind_some, Option.bind_some]
      by_cases hp : ';' ∈ p.2
      · rw [if_pos (List.mem_append_left _ hp), if_pos hp]
      · rw [if_neg hp] at hsemicolon ⊢
        have hc : ';' ∉ lineComment c := by simpa [lineComment] using hsemicolon rfl
        rw [if_neg fun hmem => (List.mem_append.1 hmem).elim hp hc]
  · rw [if_neg hspace, if_neg hspace]

/-- A comment at the end of a line changes no declaration on it, unless it has a semicolon behind
a declaration or closes an attribute. -/
theorem declaredName?_lineComment {line : List Char}
    (hsemicolon : (declaredName? line).isSome → ';' ∉ c)
    (hattribute : ClosesAttributes line ∨ ']' ∉ c) :
    declaredName? (line ++ lineComment c) = declaredName? line := by
  have hclass : ∀ d ∈ (lineComment c).head?, d ∉ "class".toList := by
    intro d hd
    obtain rfl := Option.some.inj hd
    decide
  rw [declaredName?_eq] at hsemicolon
  rw [declaredName?_eq, declaredName?_eq, dropSpaces_lineComment]
  by_cases hnil : dropSpaces line = []
  · rw [if_pos hnil, hnil]
    rfl
  rw [if_neg hnil, Marker.isPrefixOf?_append hclass]
  cases hrest : "class".toList.isPrefixOf? (dropSpaces line) with
  | none => rfl
  | some rest =>
    have hcloses : ClosesAttributes rest ∨ ']' ∉ c := by
      refine hattribute.imp_left fun hline => ?_
      have hsplit := hline.dropSpaces
      rw [← List.isPrefixOf?_eq_some_iff_append_eq.1 hrest] at hsplit
      exact hsplit.of_append
    rw [hrest, Option.bind_some] at hsemicolon
    rw [Option.map_some, Option.bind_some, Option.bind_some,
      nameBehindClass?_lineComment hsemicolon hcloses]

end Comment

/-! ## Owners -/

/-- The class that owns a place before a break is declared before the break. -/
theorem owningClass?_append_of_le {xs ys : List ClassDeclaration} {offset : Nat}
    (h : ∀ d ∈ ys, offset ≤ d.offset) : owningClass? (xs ++ ys) offset = owningClass? xs offset := by
  have hnone : ys.reverse.find? (·.offset < offset) = none := by
    rw [List.find?_eq_none]
    intro d hd
    simpa using h d (List.mem_reverse.1 hd)
  rw [owningClass?, List.reverse_append, List.find?_append, hnone, Option.none_or, owningClass?]

/-- The class that owns a place behind a break is declared behind the break if one is, or else the
last one before it. -/
theorem owningClass?_append {xs ys : List ClassDeclaration} {n offset : Nat}
    (h : ∀ d ∈ xs, d.offset < n + offset) :
    owningClass? (xs ++ ys.map (ClassDeclaration.shift n)) (n + offset) =
      ((owningClass? ys offset).map (ClassDeclaration.shift n)).or xs.getLast? := by
  have hlast : xs.reverse.find? (·.offset < n + offset) = xs.getLast? := by
    rw [← List.head?_reverse]
    have hall : ∀ d ∈ xs.reverse, d.offset < n + offset := fun d hd => h d (List.mem_reverse.1 hd)
    cases hxs : xs.reverse with
    | nil => rfl
    | cons d ds =>
      rw [hxs] at hall
      have hd : d.offset < n + offset := hall d List.mem_cons_self
      simp only [List.find?_cons, decide_eq_true hd, List.head?_cons]
  have hshift : ∀ d : ClassDeclaration,
      (decide ((d.shift n).offset < n + offset)) = decide (d.offset < offset) := by
    intro d
    simp only [ClassDeclaration.shift, Nat.add_lt_add_iff_left]
  rw [owningClass?, List.reverse_append, List.find?_append, hlast, ← List.map_reverse,
    List.find?_map, owningClass?]
  simp only [Function.comp_def, hshift]

end ChaiBind.Header
