import ChaiBind.Proofs.Header.Declarations
import ChaiBind.Proofs.Header.SignatureParts
import ChaiBind.Proofs.Text.Words
import Mathlib.Data.List.Infix

/-!
# Member functions in their plain form

A `MemberLine` declares a member function with specifiers, a return type, a name, parameters
whose parentheses nest one deep, and words behind them. Such a line is read as an overload of its
name that has these parts (`readLine_declaration`): the search for a name with a list finds no
earlier one, since the type has no parenthesis, and what comes before the name is the specifiers,
which are dropped, and the type.

* `signatureWithin?_eq_none_of_name`: no name with a list starts in front of the first parenthesis
  but the one right before it.
* `words_before`: the words in front of the name.
-/

namespace ChaiBind.Header

open Text

/-! ## In front of the name -/

/-- No name with a list starts in a text that ends outside words, if a name with the first
parenthesis right behind it follows. -/
theorem signatureWithin?_eq_none_of_name {u name : List Char} (hu : '(' ∉ u)
    (hend : u.getLast?.any isWord = false) (hname : IsIdentifier name) (passed list : List Char) :
    signatureWithin? passed u (name ++ '(' :: list) = none := by
  have hopen : '(' ∉ name := notMem_of_isWord (fun _ => hname.isWord_of_mem) (by decide)
  induction u generalizing passed with
  | nil => rfl
  | cons c cs ih =>
    have hrest : cs.getLast?.any isWord = false := by
      cases cs with
      | nil => rfl
      | cons d ds => rwa [List.getLast?_cons_cons] at hend
    rw [signatureWithin?, ih (fun h => hu (List.mem_cons_of_mem c h)) hrest, Option.or_none]
    cases hs : signatureAt? passed (c :: cs ++ (name ++ '(' :: list)) with
    | none => rfl
    | some s =>
      obtain ⟨hbefore, gap, hfits⟩ := signatureAt?_eq_some hs
      have hline := hfits.line
      rw [hbefore, List.append_cancel_left_eq, ← List.append_assoc, ← List.append_assoc] at hline
      have hfound : '(' ∉ s.name ++ gap := by
        rw [List.mem_append, not_or]
        exact ⟨notMem_of_isWord (fun _ => hfits.name.isWord_of_mem) (by decide),
          notMem_of_blanks hfits.gap (by decide)⟩
      have hgiven : '(' ∉ (c :: cs) ++ name := by
        rw [List.mem_append, not_or]
        exact ⟨hu, hopen⟩
      -- Both end before the first parenthesis, so that the name found runs across the end of `u`.
      have hsplit : (c :: cs) ++ name = s.name ++ gap := by
        obtain ⟨t, ht, hlist⟩ := exists_of_append_cons_eq hfound hline
        cases t with
        | nil => rw [ht, List.append_nil]
        | cons d t =>
          obtain ⟨rfl, -⟩ := List.cons.inj hlist
          exact absurd (ht ▸ List.mem_append_right _ List.mem_cons_self) hgiven
      rcases List.append_eq_append_iff.1 hsplit with ⟨t, hfound, -⟩ | ⟨t, -, hgap⟩
      · have hlast := List.getLast_mem (List.cons_ne_nil c cs)
        have hword := hfits.name.isWord_of_mem (hfound ▸ List.mem_append_left t hlast)
        rw [List.getLast?_eq_some_getLast (List.cons_ne_nil c cs), Option.any_some, hword] at hend
        cases hend
      · obtain ⟨d, ds, rfl⟩ := List.exists_cons_of_ne_nil hname.ne_nil
        have hblank := hfits.gap d (hgap ▸ List.mem_append_right t List.mem_cons_self)
        have hword := hname.isWord_of_mem List.mem_cons_self
        rw [isWord_eq_false_of_isBlank hblank] at hword
        cases hword

theorem blankAttributes_of_notMem {cs : List Char} (h : '[' ∉ cs) : blankAttributes cs = cs := by
  rw [blankAttributes]
  induction cs with
  | nil => rfl
  | cons c cs ih =>
    rw [List.mem_cons, not_or] at h
    have hnone : afterAttribute? (c :: cs) = none :=
      afterAttribute?_of_head?_ne fun hc => h.1 (Option.some.inj hc).symm
    rw [blankAttributesFrom, hnone, ih h.2]

/-- Collapsing the blanks of a return type leaves a return type. -/
theorem isReturnType_intercalate_words {type : List Char} (h : isReturnType type) :
    isReturnType ([' '].intercalate (words type)) := by
  cases type with
  | nil => rfl
  | cons c cs =>
    obtain ⟨hc, hcs⟩ := Bool.and_eq_true_iff.1 h
    have hblank : isBlank c = false := isBlank_eq_false_of_isWord (isWord_of_isIdentifierStart hc)
    have htype : ∀ d ∈ [' '].intercalate (words (c :: cs)), isTypeChar d := by
      intro d hd
      cases hspace : isBlank d with
      | true => simp [isTypeChar, hspace]
      | false =>
        rcases List.mem_cons.1 (mem_of_mem_intercalate_words hspace hd) with rfl | hd
        · simp [isTypeChar, isWord_of_isIdentifierStart hc]
        · exact List.all_eq_true.1 hcs d hd
    obtain ⟨w, ws, hwords⟩ := exists_words_cons hblank cs
    have hjoin : ∃ ds, [' '].intercalate (words (c :: cs)) = c :: ds := by
      rw [hwords]
      cases ws with
      | nil => exact ⟨w, List.intercalate_singleton⟩
      | cons v vs => exact ⟨_, List.intercalate_cons_cons⟩
    obtain ⟨ds, hds⟩ := hjoin
    rw [hds] at htype ⊢
    exact Bool.and_eq_true_iff.2 ⟨hc, List.all_eq_true.2 fun d hd =>
      htype d (List.mem_cons_of_mem c hd)⟩

/-! ## Member lines -/

/-- A line that declares a member function: specifiers, each with the blanks behind it, a return
type, blanks, a name, its parameters in parentheses, and more in front of the semicolon. -/
structure MemberLine where
  indent : List Char
  specified : List (List Char × List Char)
  type : List Char
  gap : List Char
  name : List Char
  params : List Char
  after : List Char
  /-- What follows the semicolon. -/
  trail : List Char
deriving DecidableEq, Repr

namespace MemberLine

/-- The text of some specifiers. -/
def specifierText (specified : List (List Char × List Char)) : List Char :=
  specified.flatMap fun s => s.1 ++ s.2

/-- The declaration that a line holds. -/
def declaration (m : MemberLine) : Declaration :=
  ⟨specifierText m.specified ++ (m.type ++ m.gap), m.name, [], m.params, m.after⟩

/-- The line as it is written. -/
def text (m : MemberLine) : List Char := m.indent ++ m.declaration.text ++ m.trail

/-- The overload that the line declares in a file with some code. -/
def overload (m : MemberLine) (code : List Char) : Overload :=
  { returnType := String.ofList ([' '].intercalate (words m.type))
    params := Param.ofList m.params
    isOverloaded := 1 < occurrences m.name code
    isStatic := (m.specified.map Prod.fst).contains "static".toList
    isConst := startsWithWord "const".toList (trimStart m.after) }

/-- The parts are those of a plain declaration, which fits on its line and has no literal, comment
or brace, and which is neither an operator nor deleted. -/
structure WellFormed (m : MemberLine) : Prop where
  indent : ∀ c ∈ m.indent, isBlank c
  specified : ∀ s ∈ m.specified, s.1 ∈ specifiers ∧ s.2 ≠ [] ∧ ∀ c ∈ s.2, isBlank c
  typed : m.type ≠ []
  type : isReturnType m.type
  angles : hasBalancedAngles m.type
  unspecified : ∀ w ∈ specifiers, containsWord w m.type = false
  statement : ∀ w ∈ (words m.type).head?, w ∉ statementKeywords
  gap : ∀ c ∈ m.gap, isBlank c
  apart : (m.type ++ m.gap).getLast?.any isWord = false
  name : IsIdentifier m.name
  keyword : m.name ∉ statementKeywords
  params : ∃ n ∈ nesting? m.params, n ≤ 1
  trail : ∀ c ∈ m.trail, isBlank c
  oneLine : '\n' ∉ m.text
  braces : '{' ∉ m.text ∧ '}' ∉ m.text
  quotes : '"' ∉ m.text ∧ '\'' ∉ m.text
  comments : ¬ ['/', '/'] <:+: m.text ∧ ¬ ['/', '*'] <:+: m.text
  operator : containsWord "operator".toList m.declaration.text = false
  kept : isDeleted m.declaration.text = false

instance (m : MemberLine) : Decidable m.WellFormed :=
  decidable_of_iff
    ((∀ c ∈ m.indent, isBlank c) ∧
      (∀ s ∈ m.specified, specifiers.contains s.1 ∧ s.2 ≠ [] ∧ ∀ c ∈ s.2, isBlank c) ∧
      m.type ≠ [] ∧ isReturnType m.type ∧ hasBalancedAngles m.type ∧
      (∀ w ∈ specifiers, containsWord w m.type = false) ∧
      (∀ w ∈ (words m.type).head?, ¬ statementKeywords.contains w) ∧
      (∀ c ∈ m.gap, isBlank c) ∧ (m.type ++ m.gap).getLast?.any isWord = false ∧
      IsIdentifier m.name ∧ ¬ statementKeywords.contains m.name ∧ (∃ n ∈ nesting? m.params, n ≤ 1) ∧
      (∀ c ∈ m.trail, isBlank c) ∧ '\n' ∉ m.text ∧ ('{' ∉ m.text ∧ '}' ∉ m.text) ∧
      ('"' ∉ m.text ∧ '\'' ∉ m.text) ∧ (¬ ['/', '/'] <:+: m.text ∧ ¬ ['/', '*'] <:+: m.text) ∧
      containsWord "operator".toList m.declaration.text = false ∧
      isDeleted m.declaration.text = false)
    (by
      simp only [List.contains_iff_mem]
      exact
        ⟨fun ⟨h₁, h₂, h₃, h₄, h₅, h₆, h₇, h₈, h₉, h₁₀, h₁₁, h₁₂, h₁₃, h₁₄, h₁₅, h₁₆, h₁₇, h₁₈, h₁₉⟩ =>
            ⟨h₁, h₂, h₃, h₄, h₅, h₆, h₇, h₈, h₉, h₁₀, h₁₁, h₁₂, h₁₃, h₁₄, h₁₅, h₁₆, h₁₇, h₁₈, h₁₉⟩,
          fun h => ⟨h.indent, h.specified, h.typed, h.type, h.angles, h.unspecified, h.statement,
            h.gap, h.apart, h.name, h.keyword, h.params, h.trail, h.oneLine, h.braces, h.quotes,
            h.comments, h.operator, h.kept⟩⟩)

/-! ## What comes before the name -/

theorem isIdentifier_of_mem_specifiers : ∀ w ∈ specifiers, IsIdentifier w := by decide

/-- A specifier ends at a blank. -/
theorem exists_specifierText_cons {s : List Char × List Char}
    (h : s.2 ≠ [] ∧ ∀ c ∈ s.2, isBlank c) (specified : List (List Char × List Char)) :
    ∃ d blanks, isBlank d ∧ (∀ c ∈ blanks, isBlank c) ∧ ∀ v, specifierText (s :: specified) ++ v =
      s.1 ++ d :: (blanks ++ (specifierText specified ++ v)) := by
  obtain ⟨hne, hblanks⟩ := h
  obtain ⟨d, blanks, hs⟩ := List.exists_cons_of_ne_nil hne
  rw [hs] at hblanks
  obtain ⟨hd, hblanks⟩ := List.forall_mem_cons.1 hblanks
  exact ⟨d, blanks, hd, hblanks, fun v => by simp [specifierText, hs]⟩

section

variable {specified : List (List Char × List Char)}
  (h : ∀ s ∈ specified, s.1 ∈ specifiers ∧ s.2 ≠ [] ∧ ∀ c ∈ s.2, isBlank c)
include h

theorem words_specifierText (v : List Char) :
    words (specifierText specified ++ v) = specified.map Prod.fst ++ words v := by
  induction specified with
  | nil => rfl
  | cons s specified ih =>
    obtain ⟨⟨hspecifier, hbehind⟩, hrest⟩ := List.forall_mem_cons.1 h
    have hword := isIdentifier_of_mem_specifiers s.1 hspecifier
    obtain ⟨d, blanks, hd, hblanks, htext⟩ := exists_specifierText_cons hbehind specified
    rw [htext, words_append_cons _ hd, words_blank_append hblanks, ih hrest,
      words_of_forall hword.ne_nil fun c hc => isBlank_eq_false_of_isWord (hword.isWord_of_mem hc)]
    rfl

/-- A specifier is found in front of a type if and only if it is among those that stand there. -/
theorem containsWord_specifierText {w : List Char} (hw : w ∈ specifiers) (v : List Char) :
    containsWord w (specifierText specified ++ v) =
      ((specified.map Prod.fst).contains w || containsWord w v) := by
  have hidentifier := isIdentifier_of_mem_specifiers w hw
  induction specified with
  | nil => rfl
  | cons s specified ih =>
    obtain ⟨⟨hspecifier, hbehind⟩, hrest⟩ := List.forall_mem_cons.1 h
    obtain ⟨d, blanks, hd, hblanks, htext⟩ := exists_specifierText_cons hbehind specified
    have hfirst : containsWord w s.1 = (w == s.1) := by
      by_cases heq : w = s.1
      · rw [beq_iff_eq.2 heq, ← heq, containsWord_self hidentifier]
      · rw [beq_false_of_ne heq,
          containsWord_name (isIdentifier_of_mem_specifiers s.1 hspecifier) (Ne.symm heq)]
    rw [htext, containsWord_append_blank_cons hidentifier hd,
      containsWord_blank_append hidentifier hblanks, ih hrest, hfirst, ← Bool.or_assoc,
      List.map_cons, List.contains_cons]

end

variable {m : MemberLine} (h : m.WellFormed)
include h

theorem exists_type_cons : ∃ c cs, m.type = c :: cs ∧ isWord c ∧ ∀ d ∈ cs, isTypeChar d := by
  obtain ⟨c, cs, hc⟩ := List.exists_cons_of_ne_nil h.typed
  have htype := h.type
  rw [hc] at htype
  obtain ⟨hstart, hall⟩ := Bool.and_eq_true_iff.1 htype
  exact ⟨c, cs, hc, isWord_of_isIdentifierStart hstart, List.all_eq_true.1 hall⟩

theorem isTypeChar_of_mem_before : ∀ c ∈ m.declaration.before, isTypeChar c := by
  have hword : ∀ c, isWord c → isTypeChar c := fun c hc => by simp [isTypeChar, hc]
  have hblank : ∀ c, isBlank c → isTypeChar c := fun c hc => by simp [isTypeChar, hc]
  intro c hc
  rcases List.mem_append.1 hc with hc | hc
  · obtain ⟨s, hs, hc⟩ := List.mem_flatMap.1 hc
    obtain ⟨hspecifier, -, hblanks⟩ := h.specified s hs
    rcases List.mem_append.1 hc with hc | hc
    · exact hword c ((isIdentifier_of_mem_specifiers s.1 hspecifier).isWord_of_mem hc)
    · exact hblank c (hblanks c hc)
  · rcases List.mem_append.1 hc with hc | hc
    · obtain ⟨d, ds, hd, hstart, hall⟩ := exists_type_cons h
      rw [hd] at hc
      rcases List.mem_cons.1 hc with rfl | hc
      · exact hword c hstart
      · exact hall c hc
    · exact hblank c (h.gap c hc)

theorem notMem_before {c : Char} (hc : isTypeChar c = false) : c ∉ m.declaration.before := by
  intro hmem
  rw [isTypeChar_of_mem_before h c hmem] at hc
  cases hc

theorem words_before :
    words m.declaration.before = m.specified.map Prod.fst ++ words m.type := by
  rw [declaration, words_specifierText h.specified, words_append_blanks h.gap]

theorem returnWords_declaration : m.declaration.signature.returnWords = words m.type := by
  have hdropped : (m.specified.map Prod.fst).filter (fun w => !specifiers.contains w) = [] := by
    rw [List.filter_eq_nil_iff]
    intro w hw
    obtain ⟨s, hs, rfl⟩ := List.mem_map.1 hw
    simp [(h.specified s hs).1]
  have hkept : (words m.type).filter (fun w => !specifiers.contains w) = words m.type := by
    rw [List.filter_eq_self]
    intro w hw
    rw [Bool.not_eq_true', ← Bool.not_eq_true, List.contains_iff_mem]
    intro hspecifier
    have hcontains := containsWord_of_mem_words (isIdentifier_of_mem_specifiers w hspecifier) hw
    rw [h.unspecified w hspecifier] at hcontains
    cases hcontains
  have hbefore : m.declaration.signature.before = m.declaration.before := rfl
  rw [Signature.returnWords, hbefore, blankAttributes_of_notMem (notMem_before h rfl),
    words_before h, List.filter_append, hdropped, hkept, List.nil_append]

theorem returnType_declaration :
    m.declaration.signature.returnType = [' '].intercalate (words m.type) := by
  rw [Signature.returnType, returnWords_declaration h]

/-! ## How the line is read -/

theorem exists_text_cons : ∃ c cs, m.declaration.text = c :: cs ∧ isWord c := by
  have hfirst : ∃ c cs, m.declaration.before = c :: cs ∧ isWord c := by
    rw [declaration]
    cases hs : m.specified with
    | nil =>
      obtain ⟨c, cs, hc, hword, -⟩ := exists_type_cons h
      exact ⟨c, cs ++ m.gap, by rw [hc]; rfl, hword⟩
    | cons s specified =>
      obtain ⟨hspecifier, hbehind⟩ := h.specified s (hs ▸ List.mem_cons_self)
      have hidentifier := isIdentifier_of_mem_specifiers s.1 hspecifier
      obtain ⟨c, cs, hc⟩ := List.exists_cons_of_ne_nil hidentifier.ne_nil
      obtain ⟨d, blanks, -, -, htext⟩ := exists_specifierText_cons hbehind specified
      exact ⟨c, _, by rw [htext, hc]; rfl, hidentifier.isWord_of_mem (hc ▸ List.mem_cons_self)⟩
  obtain ⟨c, cs, hc, hword⟩ := hfirst
  exact ⟨c, _, by rw [Declaration.text, hc]; rfl, hword⟩

theorem trim_text : trim m.text = m.declaration.text := by
  obtain ⟨c, cs, hc, hword⟩ := exists_text_cons h
  have hstart : trimStart (m.indent ++ m.declaration.text) = m.declaration.text := by
    rw [hc]
    exact trimStart_blanks_append h.indent (isBlank_eq_false_of_isWord hword)
  have hend : ∃ u, m.declaration.text = u ++ ';' :: [] :=
    ⟨m.declaration.before ++ (m.name ++ '(' :: (m.params ++ ')' :: m.after)), by
      simp [Declaration.text, Declaration.rest, declaration]⟩
  obtain ⟨u, hu⟩ := hend
  rw [text, trim_append_of_blank h.trail, trim, hstart, hu, trimEnd_append_cons rfl]
  rfl

/-- The line is no directive. -/
theorem lineCode_declaration : lineCode m.declaration.text = m.declaration.text := by
  obtain ⟨c, cs, hc, hword⟩ := exists_text_cons h
  have hhash : m.declaration.text.head? ≠ some '#' := by
    rw [hc, List.head?_cons, Ne, Option.some.injEq]
    rintro rfl
    exact absurd hword (by decide)
  rw [← trim_text h, lineCode, trim_trim, trim_text h, if_neg hhash]

theorem depthAfter_declaration (depth : Nat) : depthAfter depth m.declaration.text = depth := by
  have hmem : ∀ {c : Char}, c ∉ m.text → m.declaration.text.count c = 0 := by
    intro c hc
    rw [List.count_eq_zero]
    intro hm
    exact hc (List.mem_append_left _ (List.mem_append_right _ hm))
  rw [depthAfter, hmem h.braces.1, hmem h.braces.2]
  rfl

theorem exists_first_word : ∃ w ws, words m.type = w :: ws ∧ w ∉ statementKeywords := by
  obtain ⟨c, cs, hc, hstart, -⟩ := exists_type_cons h
  obtain ⟨w, ws, hwords⟩ := exists_words_cons (isBlank_eq_false_of_isWord hstart) cs
  rw [← hc] at hwords
  exact ⟨c :: w, ws, hwords, h.statement _ (by rw [hwords]; exact rfl)⟩

theorem returnType_ne_nil : m.declaration.signature.returnType ≠ [] := by
  obtain ⟨c, cs, hc, hstart, -⟩ := exists_type_cons h
  intro hnil
  have hcount := count_intercalate_words (isBlank_eq_false_of_isWord hstart) m.type
  rw [← returnType_declaration h, hnil, hc, List.count_cons_self] at hcount
  cases hcount

theorem isStatement_declaration : m.declaration.signature.isStatement = false := by
  obtain ⟨w, ws, hwords, hstatement⟩ := exists_first_word h
  have hname : m.declaration.signature.name = m.name := rfl
  rw [Signature.isStatement, hname, returnWords_declaration h, hwords, List.head?_cons,
    Option.any_some, Bool.or_eq_false_iff, ← Bool.not_eq_true, ← Bool.not_eq_true,
    List.contains_iff_mem, List.contains_iff_mem]
  exact ⟨h.keyword, hstatement⟩

theorem isDestructor_declaration : m.declaration.signature.isDestructor = false := by
  rw [Signature.isDestructor, decide_eq_false_iff_not]
  intro htilde
  obtain ⟨blanks, -, hbefore⟩ := exists_append_trimEnd m.declaration.before
  have hmem : '~' ∈ m.declaration.before := by
    rw [hbefore]
    exact List.mem_append_left _ (List.mem_of_getLast? htilde)
  exact notMem_before h rfl hmem

theorem hasBalancedAngles_declaration :
    hasBalancedAngles m.declaration.signature.returnType := by
  have hcount := h.angles
  rw [hasBalancedAngles, decide_eq_true_iff] at hcount ⊢
  rw [returnType_declaration h, count_intercalate_words rfl, count_intercalate_words rfl, hcount]

theorem wellFormed_declaration : m.declaration.WellFormed where
  name := h.name
  gap := rfl
  apart := by
    have hne : m.type ++ m.gap ≠ [] := List.append_ne_nil_of_left_ne_nil h.typed m.gap
    rw [declaration, List.getLast?_append_of_ne_nil _ hne]
    exact h.apart
  attributes := closesAttributes_of_notMem (notMem_before h rfl)
  params := by
    obtain ⟨n, hn, -⟩ := h.params
    exact Option.isSome_of_eq_some hn
  keyword := h.keyword
  destructor := isDestructor_declaration h
  typed := returnType_ne_nil h
  angles := hasBalancedAngles_declaration h

theorem signature?_declaration : signature? m.declaration.text = some m.declaration.signature := by
  have hwell := wellFormed_declaration h
  have hearlier : m.declaration.earlier? = none :=
    signatureWithin?_eq_none_of_name (notMem_before h rfl) hwell.apart h.name [] _
  have hnesting : ∀ n ∈ nesting? m.declaration.params, n ≤ 1 := by
    obtain ⟨n, hn, hle⟩ := h.params
    intro k hk
    exact Option.some.inj (hn.symm.trans hk) ▸ hle
  rw [Declaration.signature?_text hwell, hearlier, Option.none_or, if_pos hnesting]

theorem overload_declaration (code : List Char) :
    m.declaration.signature.overload code = m.overload code := by
  have hstatic : m.declaration.signature.isStatic =
      (m.specified.map Prod.fst).contains "static".toList := by
    have htype : containsWord "static".toList (m.type ++ m.gap) = false := by
      rw [containsWord_append_blank (by decide) h.gap]
      exact h.unspecified _ (by decide)
    have hbefore : m.declaration.signature.before =
        specifierText m.specified ++ (m.type ++ m.gap) := rfl
    rw [Signature.isStatic, hbefore, containsWord_specifierText h.specified (by decide), htype,
      Bool.or_false]
  have hconst : m.declaration.signature.isConst =
      startsWithWord "const".toList (trimStart m.after) := by
    have hafter : m.declaration.signature.after = m.after ++ ';' :: [] := rfl
    rw [Signature.isConst, hafter, trimStart_append_cons rfl,
      startsWithWord_append_cons (by decide) (by decide)]
  rw [Signature.overload, returnType_declaration h, hstatic, hconst]
  rfl

/-- A plain declaration is read as the overload that it declares. -/
theorem readLine_declaration (className : String) (code : List Char) :
    readLine className code m.declaration.text =
      .member (String.ofList m.name) (m.overload code) := by
  have hne : m.declaration.text ≠ [] := List.ne_nil_of_mem (a := '(') (by simp [Declaration.text])
  have htype : isReturnType m.declaration.signature.returnType := by
    rw [returnType_declaration h]
    exact isReturnType_intercalate_words h.type
  have hread : ¬ (m.declaration.text = [] || isDeleted m.declaration.text) = true := by
    simp [hne, h.kept]
  have hplain : (m.declaration.signature.isDestructor || m.declaration.signature.isStatement ||
      !isReturnType m.declaration.signature.returnType ||
      !hasBalancedAngles m.declaration.signature.returnType) = false := by
    rw [isDestructor_declaration h, isStatement_declaration h, htype,
      hasBalancedAngles_declaration h]
    rfl
  rw [readLine, if_neg hread, h.operator, if_neg Bool.false_ne_true, signature?_declaration h]
  simp only [readSignature]
  rw [hplain, if_neg Bool.false_ne_true, overload_declaration h, if_neg]
  · rfl
  · simp [returnType_ne_nil h]

end MemberLine

end ChaiBind.Header
