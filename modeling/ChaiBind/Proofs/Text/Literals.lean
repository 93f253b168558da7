import ChaiBind.Proofs.Text.Parts
import ChaiBind.Text.TopLevel

/-!
# String literals

A string literal in code survives stripping as it is (`stripFrom_quoted`), and the
pieces of a text at top level join around it: it stays in one piece, whatever it
says (`splitTopLevelFrom_quoted`). So what a text says up to its first assignment at
top level does not depend on a literal behind that (`beforeAssignment_append`).
-/

namespace ChaiBind.Text

/-- What stands between the quotes of a literal: no quote and no newline, a quote after a backslash
aside. -/
inductive IsLiteralText : List Char → Prop
  | nil : IsLiteralText []
  | escape {c : Char} {cs : List Char} (newline : c ≠ '\n') (rest : IsLiteralText cs) :
      IsLiteralText ('\\' :: c :: cs)
  | char {c : Char} {cs : List Char} (backslash : c ≠ '\\') (quote : c ≠ '"') (newline : c ≠ '\n')
      (rest : IsLiteralText cs) : IsLiteralText (c :: cs)

theorem isLiteralText_of_forall {cs : List Char} (h : ∀ c ∈ cs, c ≠ '\\' ∧ c ≠ '"' ∧ c ≠ '\n') :
    IsLiteralText cs := by
  induction cs with
  | nil => exact .nil
  | cons c cs ih =>
    obtain ⟨⟨hbackslash, hquote, hnewline⟩, hcs⟩ := List.forall_mem_cons.1 h
    exact .char hbackslash hquote hnewline (ih hcs)

/-- A literal with its quotes. -/
def quoted (u : List Char) : List Char := '"' :: (u ++ ['"'])

theorem quoted_append (u v : List Char) : quoted u ++ v = '"' :: (u ++ '"' :: v) := by
  rw [quoted, List.cons_append, List.append_assoc, List.singleton_append]

namespace IsLiteralText

variable {u : List Char} (h : IsLiteralText u)
include h

theorem newline_notMem : '\n' ∉ u := by
  induction h with
  | nil => exact List.not_mem_nil
  | escape hc _ ih =>
    rw [List.mem_cons, List.mem_cons, not_or, not_or]
    exact ⟨by decide, hc.symm, ih⟩
  | char _ _ hc _ ih =>
    rw [List.mem_cons, not_or]
    exact ⟨hc.symm, ih⟩

theorem newline_notMem_quoted : '\n' ∉ quoted u := by
  rw [quoted, List.mem_cons, List.mem_append, List.mem_singleton, not_or, not_or]
  exact ⟨by decide, h.newline_notMem, by decide⟩

/-! ## Stripping -/

theorem after_eq (next : Option Char) : (Scan.literal '"').after u next = .literal '"' := by
  induction h with
  | nil => rfl
  | escape _ _ ih => exact ih
  | char hbackslash hquote hnewline _ ih =>
    rw [Scan.after_cons, Scan.step, if_neg hbackslash, if_neg hnewline, if_neg hquote]
    exact ih

theorem stripPart_eq (next : Option Char) : stripPart (.literal '"') u next = u := by
  induction h with
  | nil => rfl
  | @escape c cs _ _ ih =>
    have hrest : stripPart (.escape '"') (c :: cs) next = c :: stripPart (.literal '"') cs next :=
      rfl
    have hstep : stripPart (.literal '"') ('\\' :: c :: cs) next =
        '\\' :: stripPart (.escape '"') (c :: cs) next := rfl
    rw [hstep, hrest, ih]
  | char hbackslash hquote hnewline _ ih =>
    rw [stripPart_cons, Scan.step, if_neg hbackslash, if_neg hnewline, if_neg hquote, ih]
    rfl

/-- A literal in code survives, and code follows it. -/
theorem stripFrom_quoted (afterWord : Bool) (post : List Char) :
    stripFrom (.code afterWord) (quoted u ++ post) = quoted u ++ stripComments post := by
  have hopen : ∀ cs, stripFrom (.code afterWord) ('"' :: cs) = '"' :: stripFrom (.literal '"') cs :=
    fun cs => rfl
  have hclose : stripFrom (.literal '"') ('"' :: post) = '"' :: stripComments post := rfl
  rw [quoted_append, hopen, stripFrom_append, h.stripPart_eq, h.after_eq, hclose, quoted_append]

end IsLiteralText

/-! ## Pieces -/

/-- The nesting after a text. -/
def Nesting.after (sep : Char) (s : Nesting) (cs : List Char) : Nesting :=
  cs.foldl (fun s c => (s.step sep c).2) s

/-- The pieces of two texts, the last of the one and the first of the other joined to one. -/
def joinPieces : List (List Char) → List (List Char) → List (List Char)
  | [], qs => qs
  | [p], qs => (p ++ qs.headD []) :: qs.tail
  | p :: p' :: ps, qs => p :: joinPieces (p' :: ps) qs

theorem joinPieces_cons {ps : List (List Char)} (p : List Char) (hps : ps ≠ [])
    (qs : List (List Char)) : joinPieces (p :: ps) qs = p :: joinPieces ps qs := by
  cases ps with
  | nil => exact absurd rfl hps
  | cons p' ps => rfl

theorem joinPieces_consHead {ps : List (List Char)} (c : Char) (hps : ps ≠ [])
    (qs : List (List Char)) :
    joinPieces (consHead c ps) qs = consHead c (joinPieces ps qs) := by
  rcases ps with _ | ⟨p, _ | ⟨p', ps⟩⟩
  · exact absurd rfl hps
  · rfl
  · rfl

theorem splitTopLevelFrom_cons (sep : Char) (s : Nesting) (c : Char) (cs : List Char) :
    splitTopLevelFrom sep s (c :: cs) =
      if (s.step sep c).1 then [] :: splitTopLevelFrom sep (s.step sep c).2 cs
      else consHead c (splitTopLevelFrom sep (s.step sep c).2 cs) := rfl

theorem splitTopLevelFrom_append (sep : Char) (s : Nesting) (u v : List Char) :
    splitTopLevelFrom sep s (u ++ v) =
      joinPieces (splitTopLevelFrom sep s u) (splitTopLevelFrom sep (s.after sep u) v) := by
  induction u generalizing s with
  | nil =>
    obtain ⟨q, qs, hqs⟩ := List.exists_cons_of_ne_nil (splitTopLevelFrom_ne_nil sep s v)
    have hafter : s.after sep [] = s := rfl
    rw [List.nil_append, hafter, hqs]
    rfl
  | cons c u ih =>
    have hafter : s.after sep (c :: u) = (s.step sep c).2.after sep u := rfl
    have hne := splitTopLevelFrom_ne_nil sep (s.step sep c).2 u
    rw [List.cons_append, splitTopLevelFrom_cons, splitTopLevelFrom_cons, hafter, ih]
    cases (s.step sep c).1 with
    | true => exact (joinPieces_cons [] hne _).symm
    | false => exact (joinPieces_consHead c hne _).symm

/-- A text in which nothing is cut is one piece. -/
theorem splitTopLevelFrom_cons_of_not_cut {sep c : Char} {s : Nesting} {cs p : List Char}
    (hcut : (s.step sep c).1 = false) (h : splitTopLevelFrom sep (s.step sep c).2 cs = [p]) :
    splitTopLevelFrom sep s (c :: cs) = [c :: p] := by
  rw [splitTopLevelFrom_cons, hcut, h]
  rfl

theorem IsLiteralText.splitTopLevelFrom_eq {u : List Char} (h : IsLiteralText u) (sep : Char)
    (depth : Int) :
    splitTopLevelFrom sep (.literal depth '"') (u ++ ['"']) = [u ++ ['"']] ∧
      (Nesting.literal depth '"').after sep (u ++ ['"']) = .code depth false := by
  induction h with
  | nil => exact ⟨rfl, rfl⟩
  | @escape c cs _ _ ih =>
    have hescape := splitTopLevelFrom_cons_of_not_cut (s := .escape depth '"') (c := c) rfl ih.1
    exact ⟨splitTopLevelFrom_cons_of_not_cut rfl hescape, ih.2⟩
  | @char c cs hbackslash hquote _ _ ih =>
    have hstep : (Nesting.literal depth '"').step sep c = (false, .literal depth '"') := by
      rw [Nesting.step, if_neg hbackslash, if_neg hquote]
    refine ⟨splitTopLevelFrom_cons_of_not_cut (congrArg Prod.fst hstep) ?_, ?_⟩
    · rw [hstep]
      exact ih.1
    · rw [List.cons_append, Nesting.after, List.foldl_cons, hstep]
      exact ih.2

/-- A literal is part of one piece, and what follows it is cut as if it were not there. -/
theorem IsLiteralText.splitTopLevelFrom_quoted {u : List Char} (h : IsLiteralText u) (sep : Char)
    (depth : Int) (afterWord : Bool) (v : List Char) :
    splitTopLevelFrom sep (.code depth afterWord) (quoted u ++ v) =
      joinPieces [quoted u] (splitTopLevelFrom sep (.code depth false) v) := by
  obtain ⟨hpieces, hafter⟩ := h.splitTopLevelFrom_eq sep depth
  have hone : splitTopLevelFrom sep (.code depth afterWord) (quoted u) = [quoted u] :=
    splitTopLevelFrom_cons_of_not_cut rfl hpieces
  have hcode : (Nesting.code depth afterWord).after sep (quoted u) = .code depth false := hafter
  rw [splitTopLevelFrom_append, hone, hcode]

theorem headD_joinPieces {ps : List (List Char)} (h : 1 < ps.length) (qs : List (List Char)) :
    (joinPieces ps qs).headD [] = ps.headD [] := by
  match ps, h with
  | p :: p' :: ps, _ => rfl

/-- The text has an assignment at top level. -/
def hasAssignment (cs : List Char) : Bool := 1 < (splitTopLevel '=' cs).length

/-- What comes after an assignment does not matter before it. -/
theorem beforeAssignment_append {u : List Char} (h : hasAssignment u) (v : List Char) :
    beforeAssignment (u ++ v) = beforeAssignment u := by
  have hpieces : 1 < (splitTopLevelFrom '=' .start u).length := of_decide_eq_true h
  rw [beforeAssignment, splitTopLevel, splitTopLevelFrom_append, headD_joinPieces hpieces,
    beforeAssignment, splitTopLevel]

/-- A function of pieces that looks at the start of the last one only sees what is joined to it
nowhere. -/
theorem map_joinPieces {β : Type} {f : List Char → β} {ps : List (List Char)} (hps : ps ≠ [])
    (hlast : ∀ p ∈ ps.getLast?, ∀ z, f (p ++ z) = f p) (qs : List (List Char)) :
    (joinPieces ps qs).map f = ps.map f ++ qs.tail.map f := by
  induction ps with
  | nil => exact absurd rfl hps
  | cons p ps ih =>
    cases ps with
    | nil =>
      have hp : ∀ z, f (p ++ z) = f p := hlast p rfl
      rw [joinPieces, List.map_cons, hp, List.map_singleton, List.singleton_append]
    | cons p' ps =>
      rw [joinPieces, List.map_cons, ih (List.cons_ne_nil _ _) hlast]
      rfl

end ChaiBind.Text
