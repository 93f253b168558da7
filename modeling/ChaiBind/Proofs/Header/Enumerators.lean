import ChaiBind.Proofs.Header.CodeLines
import ChaiBind.Proofs.Header.EnumHeads

/-!
# Comments at a marked enumeration

A comment at the end of a line behind the marker of an enumeration may stand before the
declaration, in its underlying type, among its enumerators or behind it, as long as it
does not say what ends the part it stands in (`AdmitsComment`). Then the enumeration is
read as without the comment (`AdmitsComment.readEnumeration?_eq`).

* `enumerators_comment`: the enumerators of a body with a comment.
-/

namespace ChaiBind

namespace Text

/-! ## Pieces around a blank -/

theorem joinPieces_eq {ps : List (List Char)} (hps : ps ≠ []) (qs : List (List Char)) :
    joinPieces ps qs = ps.dropLast ++ (ps.getLast hps ++ qs.headD []) :: qs.tail := by
  induction ps with
  | nil => exact absurd rfl hps
  | cons p ps ih =>
    cases ps with
    | nil => rfl
    | cons p' ps =>
      have hne : p' :: ps ≠ [] := List.cons_ne_nil p' ps
      rw [joinPieces_cons p hne, ih hne, List.dropLast_cons_of_ne_nil hne, List.getLast_cons hne,
        List.cons_append]

/-- A single piece is the whole text. -/
theorem eq_of_splitTopLevelFrom_eq_singleton {sep : Char} {s : Nesting} {cs p : List Char}
    (h : splitTopLevelFrom sep s cs = [p]) : p = cs := by
  induction cs generalizing s p with
  | nil => exact (List.cons.inj h).1.symm
  | cons c cs ih =>
    have hne := splitTopLevelFrom_ne_nil sep (s.step sep c).2 cs
    rw [splitTopLevelFrom_cons] at h
    split at h
    · exact absurd (List.cons.inj h).2 hne
    · obtain ⟨q, qs, hqs⟩ := List.exists_cons_of_ne_nil hne
      rw [hqs, consHead] at h
      obtain ⟨rfl, rfl⟩ := List.cons.inj h
      rw [ih hqs]

namespace Nesting

/-- A literal has one of the two quotes. -/
def WellQuoted : Nesting → Prop
  | .code _ _ => True
  | .literal _ quote => quote = '"' ∨ quote = '\''
  | .escape _ quote => quote = '"' ∨ quote = '\''

theorem WellQuoted.step {s : Nesting} (h : s.WellQuoted) (sep c : Char) :
    (s.step sep c).2.WellQuoted := by
  cases s with
  | code depth afterWord =>
    rw [Nesting.step]
    split
    · rename_i hc
      simp only [Bool.or_eq_true, decide_eq_true_eq, Bool.and_eq_true] at hc
      exact hc.imp_right And.left
    · split
      · trivial
      · split <;> trivial
  | literal depth quote =>
    rw [Nesting.step]
    split
    · exact h
    · split
      · trivial
      · exact h
  | escape depth quote => exact h

theorem wellQuoted_after (sep : Char) (cs : List Char) : (start.after sep cs).WellQuoted := by
  have hfold : ∀ s : Nesting, s.WellQuoted → (s.after sep cs).WellQuoted := by
    induction cs with
    | nil => exact fun s hs => hs
    | cons c cs ih => exact fun s hs => ih _ (hs.step sep c)
  exact hfold start trivial

/-- A blank cuts nothing, and at the end of a line it leaves no trace in the nesting. -/
theorem WellQuoted.step_blank {s : Nesting} (h : s.WellQuoted) {sep d : Char} (hd : isBlank d)
    (hsep : sep ≠ d) :
    (s.step sep d).1 = false ∧ (s.step sep d).2.step sep '\n' = s.step sep '\n' := by
  have hne : ∀ c, isBlank c = false → d ≠ c := by
    rintro c hc rfl
    rw [hd] at hc
    cases hc
  have hopening : isOpening d = false := by
    simp [isOpening, hne '<' rfl, hne '(' rfl, hne '[' rfl, hne '{' rfl]
  have hclosing : isClosing d = false := by
    simp [isClosing, hne '>' rfl, hne ')' rfl, hne ']' rfl, hne '}' rfl]
  cases s with
  | code depth afterWord =>
    have hstep : (code depth afterWord).step sep d = (false, code depth d.isAlphanum) := by
      simp [Nesting.step, hne '"' rfl, hne '\'' rfl, hopening, hclosing, Ne.symm hsep]
    rw [hstep]
    exact ⟨rfl, rfl⟩
  | literal depth quote =>
    rcases h with rfl | rfl
    · simp [Nesting.step, hne '\\' rfl, hne '"' rfl]
    · simp [Nesting.step, hne '\\' rfl, hne '\'' rfl]
  | escape depth quote =>
    rcases h with rfl | rfl
    · exact ⟨rfl, rfl⟩
    · exact ⟨rfl, rfl⟩

end Nesting

/-- The pieces of a text behind another one; the first goes on with the last piece of that. -/
def piecesBehind (sep : Char) (x y : List Char) : List (List Char) :=
  splitTopLevelFrom sep (Nesting.start.after sep x) y

/-- What a text says since its last separator. -/
def lastPiece (sep : Char) (x : List Char) : List Char := (splitTopLevel sep x).getLastD []

/-- What a text behind another one says up to its first separator. -/
def firstPiece (sep : Char) (x y : List Char) : List Char := (piecesBehind sep x y).headD []

section Blank

variable {sep : Char}

theorem piecesBehind_eq (x y : List Char) :
    piecesBehind sep x y = firstPiece sep x y :: (piecesBehind sep x y).tail := by
  obtain ⟨q, qs, hqs⟩ :=
    List.exists_cons_of_ne_nil (splitTopLevelFrom_ne_nil sep (Nesting.start.after sep x) y)
  rw [firstPiece, piecesBehind, hqs]
  rfl

theorem splitTopLevel_append (x y : List Char) :
    splitTopLevel sep (x ++ y) = (splitTopLevel sep x).dropLast ++
      (lastPiece sep x ++ firstPiece sep x y) :: (piecesBehind sep x y).tail := by
  have hne : splitTopLevel sep x ≠ [] := splitTopLevelFrom_ne_nil sep .start x
  have hlast : (splitTopLevel sep x).getLast hne = lastPiece sep x := by
    rw [lastPiece, List.getLastD_eq_getLast?, List.getLast?_eq_some_getLast hne, Option.getD_some]
  have hjoin : splitTopLevel sep (x ++ y) = joinPieces (splitTopLevel sep x) (piecesBehind sep x y) :=
    splitTopLevelFrom_append sep .start x y
  rw [hjoin, joinPieces_eq hne, hlast, firstPiece]

theorem startsLine_firstPiece (x : List Char) {y : List Char} (hy : StartsLine y) :
    StartsLine (firstPiece sep x y) := by
  rcases hy.eq_nil_or with rfl | ⟨ds, rfl⟩
  · exact hy
  · rw [firstPiece, piecesBehind, splitTopLevelFrom_cons]
    split
    · exact (nofun : ∀ c ∈ ([] : List Char).head?, c = '\n')
    · cases splitTopLevelFrom sep ((Nesting.start.after sep x).step sep '\n').2 ds with
      | nil => exact startsLine_newline _
      | cons q qs => exact startsLine_newline _

variable (hsep : sep ≠ ' ')
include hsep

/-- A blank at the end of a line goes to its piece and changes nothing behind it. -/
theorem piecesBehind_blank (x : List Char) {y : List Char} (hy : StartsLine y) :
    piecesBehind sep x (' ' :: y) = consHead ' ' (piecesBehind sep x y) := by
  obtain ⟨hcut, hnewline⟩ := (Nesting.wellQuoted_after sep x).step_blank (d := ' ') rfl hsep
  rw [piecesBehind, splitTopLevelFrom_cons, hcut, piecesBehind]
  rcases hy.eq_nil_or with rfl | ⟨ds, rfl⟩
  · rfl
  · rw [splitTopLevelFrom_cons, hnewline, splitTopLevelFrom_cons]
    rfl

theorem firstPiece_blank (x : List Char) {y : List Char} (hy : StartsLine y) :
    firstPiece sep x (' ' :: y) = ' ' :: firstPiece sep x y ∧
      (piecesBehind sep x (' ' :: y)).tail = (piecesBehind sep x y).tail := by
  rw [firstPiece, piecesBehind_blank hsep x hy, piecesBehind_eq]
  exact ⟨rfl, rfl⟩

end Blank

/-! ## Enumerators around a blank -/

/-- No enumerator goes on over the end of a line: the one before it has its initializer there, or
nothing of it stands on one of the sides. -/
def EndsEnumerator (x y : List Char) : Prop :=
  hasAssignment (lastPiece ',' x) ∨ allBlank (lastPiece ',' x) ∨
    allBlank (firstPiece '=' (lastPiece ',' x) (firstPiece ',' x y))

instance (x y : List Char) : Decidable (EndsEnumerator x y) :=
  inferInstanceAs (Decidable (hasAssignment (lastPiece ',' x) ∨ allBlank (lastPiece ',' x) ∨
    allBlank (firstPiece '=' (lastPiece ',' x) (firstPiece ',' x y))))

theorem allBlank_iff {cs : List Char} : allBlank cs ↔ ∀ c ∈ cs, isBlank c := List.all_eq_true

/-- A blank at the end of a line is trimmed away if nothing stands on one side of it, and goes with
an initializer that comes before it. -/
theorem trim_beforeAssignment_blank {p q : List Char} (hq : StartsLine q)
    (h : hasAssignment p ∨ allBlank p ∨ allBlank (firstPiece '=' p q)) :
    trim (beforeAssignment (p ++ ' ' :: q)) = trim (beforeAssignment (p ++ q)) := by
  by_cases hassign : hasAssignment p
  · rw [beforeAssignment_append hassign, beforeAssignment_append hassign]
  have hblanks := h.resolve_left hassign
  -- Without an assignment the text before the blank is a single piece.
  obtain ⟨p', hp'⟩ : ∃ p', splitTopLevel '=' p = [p'] := by
    obtain ⟨p', ps, hps⟩ := List.exists_cons_of_ne_nil (splitTopLevelFrom_ne_nil '=' .start p)
    refine ⟨p', ?_⟩
    rw [hasAssignment, splitTopLevel, hps, List.length_cons, decide_eq_true_eq] at hassign
    rw [splitTopLevel, hps, List.length_eq_zero_iff.1 (by omega : ps.length = 0)]
  obtain rfl := eq_of_splitTopLevelFrom_eq_singleton hp'
  have hbefore : ∀ z, beforeAssignment (p' ++ z) = p' ++ firstPiece '=' p' z := by
    intro z
    rw [beforeAssignment, splitTopLevel_append, lastPiece, hp']
    rfl
  rw [hbefore, hbefore, (firstPiece_blank (by decide) p' hq).1]
  rcases hblanks with hblank | hblank
  · have hnil : trimStart p' = [] := List.dropWhile_eq_nil_iff.2 (allBlank_iff.1 hblank)
    rw [trim, trim, trimStart_append, trimStart_append, if_pos hnil, if_pos hnil]
    rfl
  · have hall : ∀ c ∈ ' ' :: firstPiece '=' p' q, isBlank c :=
      List.forall_mem_cons.2 ⟨by decide, allBlank_iff.1 hblank⟩
    rw [trim_append_of_blank hall, trim_append_of_blank (allBlank_iff.1 hblank)]

end Text

namespace Header

open Text

/-- The enumerators of a body with a comment at the end of a line that ends an enumerator. -/
theorem enumerators_comment {b c rest : List Char} {afterWord : Bool} (hc : '\n' ∉ c)
    (hrest : StartsLine rest) (hcode : Scan.start.after b none = .code afterWord)
    (h : EndsEnumerator (stripComments b) (stripComments rest)) :
    enumerators (b ++ (lineComment c ++ rest)) = enumerators (b ++ rest) := by
  obtain ⟨hplain, hcomment⟩ := stripComments_comment hc hrest hcode
  have hline := startsLine_stripComments hrest
  have hb : stripComments b = stripPart .start b none := stripFrom_eq_stripPart .start b
  have hcomma : ',' ≠ ' ' := by decide
  obtain ⟨hfirst, htail⟩ := firstPiece_blank hcomma (stripComments b) hline
  have hpiece := trim_beforeAssignment_blank (startsLine_firstPiece (stripComments b) hline) h
  rw [enumerators, enumerators, hplain, hcomment, ← hb, splitTopLevel_append, splitTopLevel_append,
    hfirst, htail]
  simp only [List.map_append, List.map_cons, hpiece]

/-! ## Trivia around a comment -/

theorem skipTriviaFrom_append {t v : List Char} (hv : ¬ Scan.Opens v.head?) (s : Scan) :
    skipTriviaFrom s (t ++ v) =
      if skipTriviaFrom s t = [] then skipTriviaFrom (s.after t none) v
      else skipTriviaFrom s t ++ v := by
  have hnone : ¬ Scan.Opens none := by simp [Scan.Opens]
  induction t generalizing s with
  | nil => rfl
  | cons c t ih =>
    have hstep : s.step c (t ++ v).head? = s.step c t.head? := by
      cases t with
      | nil => exact Scan.step_eq_of_not_opens s c hv hnone
      | cons d t => rfl
    rw [List.cons_append, skipTriviaFrom, skipTriviaFrom, hstep, Scan.after_cons, Option.or_none]
    dsimp only
    split
    · exact ih _
    · rw [if_neg (List.cons_ne_nil c t), List.cons_append]

theorem skipTrivia_append {t v : List Char} (hv : ¬ Scan.Opens v.head?) :
    skipTrivia (t ++ v) =
      if skipTrivia t = [] then skipTriviaFrom (Scan.start.after t none) v else skipTrivia t ++ v :=
  skipTriviaFrom_append hv .start

theorem skipTriviaFrom_of_startsLine {cs : List Char} (h : StartsLine cs) (afterWord : Bool) :
    skipTriviaFrom (.code afterWord) cs = skipTrivia cs ∧
      skipTriviaFrom .lineComment cs = skipTrivia cs := by
  rcases h.eq_nil_or with rfl | ⟨ds, rfl⟩
  · exact ⟨rfl, rfl⟩
  · exact ⟨rfl, rfl⟩

theorem skipTriviaFrom_lineComment {c rest : List Char} (hc : '\n' ∉ c) (hrest : StartsLine rest)
    (afterWord : Bool) :
    skipTriviaFrom (.code afterWord) (lineComment c ++ rest) = skipTrivia rest := by
  have hopen : skipTriviaFrom (.code afterWord) (lineComment c ++ rest) =
      skipTriviaFrom .lineComment (c ++ rest) := rfl
  rw [hopen, ← (skipTriviaFrom_of_startsLine hrest false).2]
  induction c with
  | nil => rfl
  | cons d c ih =>
    rw [List.mem_cons, not_or] at hc
    rw [List.cons_append, skipTriviaFrom, Scan.step, if_neg (Ne.symm hc.1)]
    exact ih hc.2 rfl

/-! ## Declarations around a comment -/

/-- What is read behind the marker of an enumeration: whether it is scoped, its name and its
enumerators. -/
def readEnumeration? (cs : List Char) : Option (Bool × List Char × List String) :=
  (enumDeclaration? (skipTrivia cs)).map fun d => (d.isScoped, d.name, enumerators d.body)

/-- A comment may stand behind `t`, which follows the marker of an enumeration, with `rest` on the
lines behind it. -/
inductive AdmitsComment (t c rest : List Char) : Prop
  /-- Before the declaration. -/
  | before (blank : skipTrivia t = [])
      (code : ∃ afterWord, Scan.start.after t none = .code afterWord)
  /-- Behind the declaration. -/
  | behind (complete : (enumDeclaration? (skipTrivia t)).isSome)
  /-- Behind something that starts no declaration, whatever follows. -/
  | other (fails : ∀ v, enumDeclaration? (skipTrivia t ++ v) = none)
  /-- In the underlying type. -/
  | inType (head : EnumHead) (ty : List Char) (found : enumHead? (skipTrivia t) = some head)
      (opened : head.rest = ':' :: ty) (goesOn : StaysInType ty ∧ StaysInType c)
  /-- Among the enumerators. -/
  | inBody (head : EnumHead) (body : List Char) (found : enumHead? (skipTrivia t) = some head)
      (opened : enumOpening? head.rest = some body) (goesOn : '}' ∉ body ∧ '}' ∉ c)
      (code : ∃ afterWord, Scan.start.after body none = .code afterWord)
      (ends : EndsEnumerator (stripComments body) (stripComments (rest.takeWhile (· ≠ '}'))))

section

variable {t c rest : List Char}

theorem startsLine_takeWhile {cs : List Char} (h : StartsLine cs) (p : Char → Bool) :
    StartsLine (cs.takeWhile p) := by
  intro d hd
  refine h d ?_
  cases cs with
  | nil => exact hd
  | cons e cs =>
    rw [List.takeWhile_cons] at hd
    split at hd
    · exact hd
    · cases hd

/-- The body around a comment that does not close it. -/
theorem map_enumerators_closedBody?_comment {b : List Char} {afterWord : Bool} (hc : '\n' ∉ c)
    (hrest : StartsLine rest) (hgoes : '}' ∉ b ∧ '}' ∉ c)
    (hcode : Scan.start.after b none = .code afterWord)
    (hends : EndsEnumerator (stripComments b) (stripComments (rest.takeWhile (· ≠ '}')))) :
    (closedBody? (b ++ (lineComment c ++ rest))).map enumerators =
      (closedBody? (b ++ rest)).map enumerators := by
  have hcomment : '}' ∉ lineComment c := by simpa [lineComment] using hgoes.2
  rw [closedBody?_append_of_notMem hgoes.1, closedBody?_append_of_notMem hcomment,
    closedBody?_append_of_notMem hgoes.1]
  cases hclosed : closedBody? rest with
  | none => rfl
  | some m =>
    obtain ⟨after, rfl, hm, -⟩ := closedBody?_eq_some_iff.1 hclosed
    have hall : ∀ d ∈ m, decide (d ≠ '}') = true := fun d hd => decide_eq_true fun e => hm (e ▸ hd)
    have htake : (m ++ '}' :: after).takeWhile (· ≠ '}') = m := by
      rw [List.takeWhile_append_of_pos hall]
      simp
    have hline := startsLine_takeWhile hrest (· ≠ '}')
    rw [htake] at hends hline
    simp only [Option.map_some]
    rw [enumerators_comment hc hline hcode hends]

/-- An underlying type around a comment that does not close it. -/
theorem enumOpening?_lineComment {ty : List Char} (hty : StaysInType ty) (hc : StaysInType c)
    (hrest : StartsLine rest) :
    enumOpening? (':' :: (ty ++ (lineComment c ++ rest))) = enumOpening? (':' :: (ty ++ rest)) := by
  have hcomment : StaysInType (ty ++ lineComment c) := by
    simpa [StaysInType, lineComment] using ⟨⟨hty.1, hc.1⟩, hty.2, hc.2⟩
  have hhead : rest.head? ≠ some '{' ∧ rest.head? ≠ some ';' := by
    rcases hrest.eq_nil_or with rfl | ⟨ds, rfl⟩ <;> simp
  rw [← List.append_assoc, enumOpening?_type hcomment hhead, enumOpening?_type hty hhead]

/-- Behind code, nothing is skipped. -/
theorem skipTrivia_append_of_ne_nil {v : List Char} (hne : skipTrivia t ≠ [])
    (hv : ¬ Scan.Opens v.head?) : skipTrivia (t ++ v) = skipTrivia t ++ v := by
  rw [skipTrivia_append hv, if_neg hne]

theorem readEnumeration?_append_of_isSome {v : List Char}
    (h : (enumDeclaration? (skipTrivia t)).isSome) (hv : ¬ Scan.Opens v.head?) :
    readEnumeration? (t ++ v) = readEnumeration? t := by
  obtain ⟨d, hd⟩ := Option.isSome_iff_exists.1 h
  have hne : skipTrivia t ≠ [] := by
    intro hnil
    rw [hnil] at hd
    cases hd
  rw [readEnumeration?, readEnumeration?, skipTrivia_append_of_ne_nil hne hv,
    enumDeclaration?_append_of_some hd, hd]

theorem readEnumeration?_append_eq_none {v : List Char}
    (h : ∀ v, enumDeclaration? (skipTrivia t ++ v) = none) (hv : ¬ Scan.Opens v.head?) :
    readEnumeration? (t ++ v) = none := by
  rw [readEnumeration?, skipTrivia_append hv]
  split
  · rename_i hnil
    have hall := h (skipTriviaFrom (Scan.start.after t none) v)
    rw [hnil, List.nil_append] at hall
    rw [hall]
    rfl
  · rw [h v]
    rfl

/-- Behind a complete head, only the body is still to be read. -/
theorem readEnumeration?_of_enumHead? {head : EnumHead} {v : List Char}
    (h : enumHead? (skipTrivia t) = some head) (hbody : StartsBody head.rest)
    (hv : ¬ Scan.Opens v.head?) :
    readEnumeration? (t ++ v) =
      ((enumBody? (head.rest ++ v)).map enumerators).map fun es =>
        (head.isScoped, head.name, es) := by
  have hne : skipTrivia t ≠ [] := by
    intro hnil
    rw [hnil] at h
    cases h
  rw [readEnumeration?, skipTrivia_append_of_ne_nil hne hv, enumDeclaration?_append h hbody,
    Option.map_map, Option.map_map]
  rfl

/-- With a comment where it is admitted, an enumeration is read as without it. -/
theorem AdmitsComment.readEnumeration?_eq (h : AdmitsComment t c rest) (hc : '\n' ∉ c)
    (hrest : StartsLine rest) :
    readEnumeration? (t ++ (lineComment c ++ rest)) = readEnumeration? (t ++ rest) := by
  have hspace : ¬ Scan.Opens (lineComment c ++ rest).head? := by simp [lineComment, Scan.Opens]
  have hline := hrest.not_opens
  cases h with
  | before blank code =>
    obtain ⟨afterWord, hcode⟩ := code
    rw [readEnumeration?, readEnumeration?, skipTrivia_append hspace, if_pos blank,
      skipTrivia_append hline, if_pos blank, hcode, skipTriviaFrom_lineComment hc hrest,
      (skipTriviaFrom_of_startsLine hrest afterWord).1]
  | behind complete =>
    rw [readEnumeration?_append_of_isSome complete hspace,
      readEnumeration?_append_of_isSome complete hline]
  | other fails =>
    rw [readEnumeration?_append_eq_none fails hspace, readEnumeration?_append_eq_none fails hline]
  | inType head ty found opened goesOn =>
    have hbody : StartsBody head.rest := .inl (by rw [opened]; rfl)
    have hopening : enumOpening? (head.rest ++ (lineComment c ++ rest)) =
        enumOpening? (head.rest ++ rest) := by
      rw [opened]
      exact enumOpening?_lineComment goesOn.1 goesOn.2 hrest
    rw [readEnumeration?_of_enumHead? found hbody hspace,
      readEnumeration?_of_enumHead? found hbody hline, enumBody?, hopening, ← enumBody?]
  | inBody head body found opened goesOn code ends =>
    obtain ⟨afterWord, hcode⟩ := code
    have hbody := startsBody_of_enumOpening? opened
    have hclosed := map_enumerators_closedBody?_comment hc hrest goesOn hcode ends
    rw [readEnumeration?_of_enumHead? found hbody hspace,
      readEnumeration?_of_enumHead? found hbody hline, enumBody?, enumBody?,
      enumOpening?_append opened, enumOpening?_append opened, Option.bind_some, Option.bind_some,
      hclosed]

end

end Header

end ChaiBind
