import ChaiBind.Proofs.Text.PlainCode
import ChaiBind.Proofs.Text.TopLevelBrackets

/-!
# Braces in code

The braces of a text outside comments and literals (`braces`) are counted from a number of open ones
on, and the count fails where one is closed that is not open (`openBraces?`). It comes to nothing
exactly for braces that match (`balanced_iff`), and so a brace in a text whose braces match has a
block behind it with a brace that closes it (`exists_block`).
-/

namespace ChaiBind.Text

/-- Whether a character that opens nothing is code. -/
def Scan.isCode : Scan → Bool
  | .code _ => true
  | _ => false

theorem Scan.isCode_iff {s : Scan} : s.isCode ↔ ∃ afterWord, s = .code afterWord := by
  cases s <;> simp [isCode]

/-- A brace outside comments and literals. -/
def isCodeBrace (x : Layer × Char) : Bool := x.1 = .code && (x.2 = '{' || x.2 = '}')

/-- The braces in the code of a text, from a state on. -/
def bracesFrom (s : Scan) (cs : List Char) : List Char :=
  ((layersFrom s cs).filter isCodeBrace).map Prod.snd

/-- The braces of a text outside comments and literals. -/
def braces (cs : List Char) : List Char := bracesFrom .start cs

theorem bracesFrom_cons (s : Scan) (c : Char) (cs : List Char) :
    bracesFrom s (c :: cs) =
      if isCodeBrace ((s.step c cs.head?).1, c) then c :: bracesFrom (s.step c cs.head?).2 cs
      else bracesFrom (s.step c cs.head?).2 cs := by
  rw [bracesFrom, layersFrom, List.filter_cons]
  split <;> rfl

theorem eq_of_mem_bracesFrom {s : Scan} {cs : List Char} {b : Char} (h : b ∈ bracesFrom s cs) :
    b = '{' ∨ b = '}' := by
  obtain ⟨x, hx, rfl⟩ := List.mem_map.1 h
  have hbrace := (List.mem_filter.1 hx).2
  simp only [isCodeBrace, Bool.and_eq_true, Bool.or_eq_true, decide_eq_true_eq] at hbrace
  exact hbrace.2

theorem bracesFrom_sublist (s : Scan) (cs : List Char) : (bracesFrom s cs).Sublist cs := by
  have h := (List.filter_sublist (p := isCodeBrace) (l := layersFrom s cs)).map Prod.snd
  rwa [map_snd_layersFrom] at h

/-- A text without braces has none in its code. -/
theorem bracesFrom_eq_nil {cs : List Char} (h : '{' ∉ cs ∧ '}' ∉ cs) (s : Scan) :
    bracesFrom s cs = [] := by
  refine List.eq_nil_iff_forall_not_mem.2 fun b hb => ?_
  have hmem := (bracesFrom_sublist s cs).subset hb
  rcases eq_of_mem_bracesFrom hb with rfl | rfl
  · exact h.1 hmem
  · exact h.2 hmem

/-- The character behind a text makes no brace of it count or not count. -/
theorem isCodeBrace_step (s : Scan) (c : Char) (next next' : Option Char) :
    isCodeBrace ((s.step c next).1, c) = isCodeBrace ((s.step c next').1, c) := by
  by_cases hc : c = '/'
  · subst hc
    simp [isCodeBrace]
  · rw [Scan.step_eq_of_ne_slash s hc next next']

theorem bracesFrom_append (s : Scan) (u v : List Char) :
    bracesFrom s (u ++ v) = bracesFrom s u ++ bracesFrom (s.after u v.head?) v := by
  induction u generalizing s with
  | nil => rfl
  | cons c u ih =>
    rw [List.cons_append, bracesFrom_cons, bracesFrom_cons, List.head?_append, ih, Scan.after_cons,
      isCodeBrace_step s c u.head? (u.head?.or v.head?)]
    cases u with
    | nil =>
      have hnone : ∀ s', bracesFrom s' [] = [] := fun _ => rfl
      rw [hnone, hnone]
      split <;> rfl
    | cons d u =>
      rw [List.head?_cons, Option.some_or]
      split <;> rfl

/-! ## Counting -/

/-- How many braces are open behind a brace. -/
def countBrace (d : Nat) (b : Char) : Option Nat :=
  if b = '{' then some (d + 1) else if d = 0 then none else some (d - 1)

/-- How many braces are open behind some more; `none` if one is closed that is not open. -/
def openBraces? (d : Nat) (bs : List Char) : Option Nat := bs.foldlM countBrace d

@[simp] theorem openBraces?_nil (d : Nat) : openBraces? d [] = some d := rfl

@[simp] theorem openBraces?_open (d : Nat) (bs : List Char) :
    openBraces? d ('{' :: bs) = openBraces? (d + 1) bs := rfl

@[simp] theorem openBraces?_close_zero (bs : List Char) : openBraces? 0 ('}' :: bs) = none := rfl

@[simp] theorem openBraces?_close_succ (d : Nat) (bs : List Char) :
    openBraces? (d + 1) ('}' :: bs) = openBraces? d bs := rfl

theorem openBraces?_append (d : Nat) (bs bs' : List Char) :
    openBraces? d (bs ++ bs') = (openBraces? d bs).bind fun d' => openBraces? d' bs' :=
  List.foldlM_append

/-- If fewer braces are open in the end, the last one that is open comes to be closed. -/
theorem exists_close {bs : List Char} (h : ∀ b ∈ bs, b = '{' ∨ b = '}') {n d e : Nat}
    (hd : openBraces? (d + n + 1) bs = some e) (he : e ≤ d) :
    ∃ inner behind, bs = inner ++ '}' :: behind ∧ openBraces? n inner = some 0 ∧
      openBraces? d behind = some e := by
  induction bs generalizing n with
  | nil =>
    have heq := Option.some.inj hd
    omega
  | cons b bs ih =>
    obtain ⟨hb, hbs⟩ := List.forall_mem_cons.1 h
    rcases hb with rfl | rfl
    · obtain ⟨inner, behind, rfl, hinner, hbehind⟩ := ih hbs (n := n + 1) hd
      exact ⟨'{' :: inner, behind, rfl, hinner, hbehind⟩
    · rw [openBraces?_close_succ] at hd
      cases n with
      | zero => exact ⟨[], bs, rfl, rfl, hd⟩
      | succ n =>
        obtain ⟨inner, behind, rfl, hinner, hbehind⟩ := ih hbs hd
        exact ⟨'}' :: inner, behind, rfl, hinner, hbehind⟩

theorem openBraces?_of_balanced {bs : List Char} (h : Balanced bs)
    (hbs : ∀ b ∈ bs, b = '{' ∨ b = '}') (d : Nat) : openBraces? d bs = some d := by
  induction h generalizing d with
  | nil => rfl
  | @pair o c inner rest closes _ _ ihInside ihBehind =>
    obtain ⟨ho, hinner, hc, hrest⟩ : (o = '{' ∨ o = '}') ∧ (∀ b ∈ inner, b = '{' ∨ b = '}') ∧
        (c = '{' ∨ c = '}') ∧ ∀ b ∈ rest, b = '{' ∨ b = '}' := by
      simpa only [List.forall_mem_cons, List.forall_mem_append] using hbs
    rcases ho with rfl | rfl
    · obtain rfl : '}' = c := Option.some.inj closes
      rw [openBraces?_open, openBraces?_append, ihInside hinner, Option.bind_some,
        openBraces?_close_succ, ihBehind hrest]
    · cases closes

/-- Braces match if none is closed that is not open and none is left open. -/
theorem balanced_iff {bs : List Char} (hbs : ∀ b ∈ bs, b = '{' ∨ b = '}') :
    Balanced bs ↔ openBraces? 0 bs = some 0 := by
  refine ⟨fun h => openBraces?_of_balanced h hbs 0, fun h => ?_⟩
  induction hn : bs.length using Nat.strongRecOn generalizing bs with
  | ind n ih =>
    cases bs with
    | nil => exact .nil
    | cons b bs =>
      obtain ⟨hb, htail⟩ := List.forall_mem_cons.1 hbs
      rcases hb with rfl | rfl
      · obtain ⟨inner, behind, rfl, hinner, hbehind⟩ :=
          exists_close htail (n := 0) (d := 0) h (Nat.le_refl 0)
        obtain ⟨hin, -, hout⟩ : (∀ b ∈ inner, b = '{' ∨ b = '}') ∧ _ ∧
            ∀ b ∈ behind, b = '{' ∨ b = '}' := by
          simpa only [List.forall_mem_cons, List.forall_mem_append] using htail
        simp only [List.length_cons, List.length_append] at hn
        exact .pair rfl (ih inner.length (by omega) hin hinner rfl)
          (ih behind.length (by omega) hout hbehind rfl)
      · cases h

theorem balanced_bracesFrom_iff {s : Scan} {cs : List Char} :
    Balanced (bracesFrom s cs) ↔ openBraces? 0 (bracesFrom s cs) = some 0 :=
  balanced_iff fun _ hb => eq_of_mem_bracesFrom hb

theorem balanced_braces_iff {cs : List Char} :
    Balanced (braces cs) ↔ openBraces? 0 (braces cs) = some 0 := balanced_bracesFrom_iff

/-! ## Blocks -/

theorem exists_code_of_isCodeBrace {s : Scan} {next : Option Char}
    (h : isCodeBrace ((s.step '}' next).1, '}')) : ∃ afterWord, s = .code afterWord := by
  cases s with
  | code afterWord => exact ⟨afterWord, rfl⟩
  | literal quote =>
    have hlayer : ((Scan.literal quote).step '}' next).1 = .literal := by
      simp only [Scan.step]
      split_ifs with hescape hnewline
      · rfl
      · exact absurd hnewline (by decide)
      · rfl
      · rfl
    rw [hlayer] at h
    cases h
  | escape => cases h
  | lineComment => cases h
  | blockOpening => cases h
  | blockComment star => cases star <;> cases h

theorem bracesFrom_singleton (s : Scan) (c : Char) (next : Option Char) :
    bracesFrom s [c] = if isCodeBrace ((s.step c next).1, c) then [c] else [] := by
  rw [bracesFrom_cons, isCodeBrace_step s c _ next]
  rfl

/-- A closing brace of a text stands in its code. -/
theorem exists_of_bracesFrom_eq {s : Scan} {cs bs bs' : List Char}
    (h : bracesFrom s cs = bs ++ '}' :: bs') :
    ∃ inner behind, cs = inner ++ '}' :: behind ∧ bracesFrom s inner = bs ∧
      ∃ afterWord, s.after inner (some '}') = .code afterWord := by
  induction cs generalizing s bs with
  | nil => exact absurd h.symm (List.append_ne_nil_of_right_ne_nil _ (List.cons_ne_nil _ _))
  | cons c cs ih =>
    have hbehind : ∀ bs, bracesFrom (s.step c cs.head?).2 cs = bs ++ '}' :: bs' →
        ∃ inner behind, c :: cs = inner ++ '}' :: behind ∧
          bracesFrom s inner = bracesFrom s [c] ++ bs ∧
          ∃ afterWord, s.after inner (some '}') = .code afterWord := by
      intro bs hbs
      obtain ⟨inner, behind, rfl, hinner, hcode⟩ := ih hbs
      rw [List.head?_append, List.head?_cons] at hinner hcode
      refine ⟨c :: inner, behind, rfl, ?_, hcode⟩
      rw [← hinner, ← List.singleton_append, bracesFrom_append s [c] inner]
      cases inner with
      | nil => rfl
      | cons d inner => rfl
    rw [bracesFrom_singleton s c cs.head?] at hbehind
    rw [bracesFrom_cons] at h
    split at h
    · rename_i hbrace
      rw [if_pos hbrace] at hbehind
      cases bs with
      | nil =>
        obtain ⟨rfl, -⟩ := List.cons_eq_cons.1 h
        exact ⟨[], cs, rfl, rfl, exists_code_of_isCodeBrace hbrace⟩
      | cons b bs =>
        obtain ⟨rfl, hbs⟩ := List.cons_eq_cons.1 h
        exact hbehind bs hbs
    · rename_i hbrace
      rw [if_neg hbrace] at hbehind
      exact hbehind bs h

/-- Where fewer braces are open in the end, a block and a brace that closes it come first. -/
theorem exists_block {s : Scan} {d e : Nat} {cs : List Char}
    (h : openBraces? (d + 1) (bracesFrom s cs) = some e) (he : e ≤ d) :
    ∃ inner behind, cs = inner ++ '}' :: behind ∧ Balanced (bracesFrom s inner) ∧
      ∃ afterWord, s.after inner (some '}') = .code afterWord := by
  obtain ⟨bs, bs', hbs, hinside, -⟩ :=
    exists_close (n := 0) (fun _ hb => eq_of_mem_bracesFrom hb) h he
  obtain ⟨inner, behind, rfl, rfl, hcode⟩ := exists_of_bracesFrom_eq hbs
  exact ⟨inner, behind, rfl, balanced_bracesFrom_iff.2 hinside, hcode⟩

/-- Behind a brace no more braces are closed than opened exactly as far as its block goes. -/
theorem isSome_openBraces?_iff {inner behind a v : List Char} (hmatched : Balanced (braces inner))
    (hclosed : ∃ afterWord, Scan.start.after inner (some '}') = .code afterWord)
    (h : inner ++ '}' :: behind = a ++ v) : (openBraces? 0 (braces a)).isSome ↔ a <+: inner := by
  have hinner := balanced_braces_iff.1 hmatched
  rcases List.append_eq_append_iff.1 h with ⟨b, rfl, hb⟩ | ⟨b, rfl, -⟩
  · cases b with
    | nil =>
      rw [List.append_nil, hinner]
      exact iff_of_true rfl (List.prefix_refl inner)
    | cons d b =>
      obtain ⟨rfl, -⟩ := List.cons_eq_cons.1 hb
      obtain ⟨afterWord, hcode⟩ := hclosed
      have hnone : openBraces? 0 (braces (inner ++ '}' :: b)) = none := by
        rw [braces, bracesFrom_append, List.head?_cons, hcode, ← braces, openBraces?_append, hinner]
        rfl
      rw [hnone]
      refine iff_of_false (by decide) fun hprefix => ?_
      have hlength := hprefix.length_le
      rw [List.length_append, List.length_cons] at hlength
      omega
  · rw [braces, bracesFrom_append, openBraces?_append] at hinner
    obtain ⟨d, hd, -⟩ := Option.bind_eq_some_iff.1 hinner
    exact iff_of_true (Option.isSome_of_eq_some hd) (List.prefix_append a b)

end ChaiBind.Text
