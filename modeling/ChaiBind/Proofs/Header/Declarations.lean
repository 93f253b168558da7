import ChaiBind.Header.Member
import ChaiBind.Proofs.Header.ReturnTypes
import ChaiBind.Proofs.Header.Search

/-!
# Lines that declare a member function

A `Declaration` is the text of a member function in its parts. The line that
holds it is answered if it becomes an overload of that name or a finding; it is
lost if it is passed over or becomes an overload of another name. `IsLost` lists
the ways in which this can happen.

* `answers_readSignature_iff`, `answers_readLine_iff`: when a signature and a line
  with a parenthesis are answered.
* `signature?_text`: the signature of a declaration is a call in front of its name,
  its own one, or a call inside its parameters.
* `answers_readLine_text_iff`: a declaration is answered unless it is lost.
-/

namespace ChaiBind.Header

open Text

/-! ## Answers -/

/-- The reading is a finding, or an overload of a name. -/
def LineReading.Answers (name : String) : LineReading → Prop
  | .ignored => False
  | .reported _ => True
  | .member n _ => n = name

/-- A signature that is passed over, or declares an overload of another name. -/
def Signature.Misses (className : String) (name : List Char) (s : Signature) : Prop :=
  s.isDestructor ∨ s.isStatement ∨ isReturnType s.returnType = false ∨
    hasBalancedAngles s.returnType = false ∨
      ((s.returnType ≠ [] ∨ String.ofList s.name = className) ∧ s.name ≠ name)

theorem answers_readSignature_iff {className : String} {code name : List Char} {s : Signature} :
    (readSignature className code s).Answers (String.ofList name) ↔
      ¬ s.Misses className name := by
  unfold readSignature
  by_cases hskip : s.isDestructor ∨ s.isStatement ∨ isReturnType s.returnType = false ∨
      hasBalancedAngles s.returnType = false
  · rw [if_pos (by simpa [or_assoc] using hskip)]
    simp only [LineReading.Answers, false_iff, not_not, Signature.Misses]
    rcases hskip with h | h | h | h
    · exact .inl h
    · exact .inr (.inl h)
    · exact .inr (.inr (.inl h))
    · exact .inr (.inr (.inr (.inl h)))
  · rw [if_neg (by simpa [or_assoc] using hskip)]
    simp only [not_or] at hskip
    simp only [Signature.Misses, hskip]
    by_cases hstray : s.returnType = [] ∧ String.ofList s.name ≠ className
    · rw [if_pos (by simpa using hstray)]
      simp [LineReading.Answers, hstray.1, hstray.2]
    · rw [if_neg (by simpa using hstray)]
      have hmember : s.returnType ≠ [] ∨ String.ofList s.name = className := by
        rw [not_and_or, not_not] at hstray
        exact hstray
      simp [LineReading.Answers, hmember, String.ofList_inj]

/-- A line with a parenthesis is answered unless it looks deleted or has a signature that misses,
since without a signature it is reported. -/
theorem answers_readLine_iff {className : String} {code name line : List Char}
    (hopen : '(' ∈ line) :
    (readLine className code line).Answers (String.ofList name) ↔
      ¬(isDeleted line ∨ containsWord "operator".toList line = false ∧
        ∃ s, signature? line = some s ∧ s.Misses className name) := by
  have hne : line ≠ [] := List.ne_nil_of_mem hopen
  rw [readLine]
  by_cases hdeleted : isDeleted line
  · rw [if_pos (by simp [hdeleted])]
    exact iff_of_false id fun hkept => hkept (.inl hdeleted)
  rw [if_neg (by simp [hne, hdeleted])]
  by_cases hop : containsWord "operator".toList line
  · rw [if_pos hop]
    refine iff_of_true trivial ?_
    rintro (h | ⟨h, -⟩)
    · exact hdeleted h
    · exact Bool.false_ne_true (h.symm.trans hop)
  rw [if_neg hop]
  rw [Bool.not_eq_true] at hop
  cases hs : signature? line with
  | some s =>
    refine answers_readSignature_iff.trans (not_congr ⟨fun hm => .inr ⟨hop, s, rfl, hm⟩, ?_⟩)
    rintro (h | ⟨-, s', hs', hm⟩)
    · exact absurd h hdeleted
    · exact Option.some.inj hs' ▸ hm
  | none =>
    rw [if_pos (List.contains_iff_mem.2 hopen)]
    simp [LineReading.Answers, hdeleted]

/-! ## Declarations -/

/-- A member function as a line declares it. -/
structure Declaration where
  /-- Attributes, specifiers and the return type. -/
  before : List Char
  name : List Char
  gap : List Char
  /-- What stands between the parentheses. -/
  params : List Char
  /-- What stands between the parameters and the semicolon. -/
  after : List Char
deriving DecidableEq, Repr

namespace Declaration

/-- What follows the parenthesis that opens the parameters. -/
def rest (d : Declaration) : List Char := d.params ++ ')' :: (d.after ++ [';'])

/-- The line as it is written. -/
def text (d : Declaration) : List Char := d.before ++ (d.name ++ (d.gap ++ '(' :: d.rest))

/-- The signature that a declaration ought to be read as. -/
def signature (d : Declaration) : Signature := ⟨d.before, d.name, d.params, d.after ++ [';']⟩

/-- The parts are those of a member function that is no destructor. Its type may be any text in which
angles are balanced, and its parameters may have parentheses in them to any depth. -/
structure WellFormed (d : Declaration) : Prop where
  name : IsIdentifier d.name
  gap : allBlank d.gap
  apart : d.before.getLast?.any isWord = false
  attributes : ClosesAttributes d.before
  params : (nesting? d.params).isSome
  keyword : d.name ∉ statementKeywords
  destructor : d.signature.isDestructor = false
  typed : d.signature.returnType ≠ []
  angles : hasBalancedAngles d.signature.returnType

instance (d : Declaration) : Decidable d.WellFormed :=
  decidable_of_iff
    (IsIdentifier d.name ∧ allBlank d.gap ∧ d.before.getLast?.any isWord = false ∧
      ClosesAttributes d.before ∧ (nesting? d.params).isSome ∧ d.name ∉ statementKeywords ∧
      d.signature.isDestructor = false ∧ d.signature.returnType ≠ [] ∧
      hasBalancedAngles d.signature.returnType)
    ⟨fun ⟨h₁, h₂, h₃, h₄, h₅, h₆, h₇, h₈, h₉⟩ => ⟨h₁, h₂, h₃, h₄, h₅, h₆, h₇, h₈, h₉⟩,
      fun h => ⟨h.name, h.gap, h.apart, h.attributes, h.params, h.keyword, h.destructor, h.typed,
        h.angles⟩⟩

/-- A name with a parameter list in front of the name of the declaration, as an attribute with
arguments or a function type has. -/
def earlier? (d : Declaration) : Option Signature :=
  signatureWithin? [] d.before (d.name ++ (d.gap ++ '(' :: d.rest))

/-- A name with a parameter list after the parenthesis that opens the parameters. -/
def later? (d : Declaration) : Option Signature :=
  signatureFrom? (d.before ++ d.name ++ d.gap ++ ['(']).reverse d.rest

/-- The ways in which a declaration gets lost. -/
inductive IsLost (className : String) (d : Declaration) : Prop
  /-- Some of it looks like `= delete`, a literal for example. -/
  | deleted (h : isDeleted d.text)
  /-- A name with a list in front of its own is taken for its name. -/
  | earlier (hop : containsWord "operator".toList d.text = false) {s : Signature}
      (hs : d.earlier? = some s) (h : s.Misses className d.name)
  /-- Its type starts with a keyword or has a character in it that is taken to be in no type. -/
  | type (hop : containsWord "operator".toList d.text = false) (hs : d.earlier? = none)
      (hdepth : ∀ n ∈ nesting? d.params, n ≤ 1)
      (h : d.signature.isStatement ∨ isReturnType d.signature.returnType = false)
  /-- Its parameters cannot be read, and a name with a list in them is taken for its name. -/
  | later (hop : containsWord "operator".toList d.text = false) (hs : d.earlier? = none)
      (hdepth : ∃ n ∈ nesting? d.params, 1 < n) (h : d.later?.isSome)

variable {d : Declaration}

/-- The signature of the text of a declaration. -/
theorem signature?_text (h : d.WellFormed) :
    signature? d.text = d.earlier?.or
      (if ∀ n ∈ nesting? d.params, n ≤ 1 then some d.signature else d.later?) := by
  have hpassed : d.before.reverse.head?.any isWord = false := by
    rw [List.head?_reverse]
    exact h.apart
  rw [signature?, text, signatureFrom?_append, List.append_nil,
    signatureFrom?_call hpassed h.name (List.all_eq_true.1 h.gap), ← earlier?]
  congr 1
  obtain ⟨n, hn⟩ := Option.isSome_iff_exists.1 h.params
  have hfrom : nestingFrom false.toNat d.params = some n := hn
  simp only [hn, Option.mem_some_iff, forall_eq']
  rw [rest, takeParams_append hfrom]
  split
  · simp [signature]
  · simp [later?, rest]

/-- A name with a list inside the parameters is never read as a declaration. -/
theorem misses_later (h : d.WellFormed) {s : Signature} (hs : d.later? = some s)
    (className : String) : s.Misses className d.name := by
  have hpre := before_of_signatureFrom? hs
  rw [List.reverse_reverse] at hpre
  have hname : '[' ∉ d.name ++ d.gap := by
    rw [List.mem_append, not_or]
    exact ⟨fun hm => absurd (h.name.isWord_of_mem hm) (by decide),
      fun hm => absurd (List.all_eq_true.1 h.gap _ hm) (by decide)⟩
  have hcloses := h.attributes.append hname
  rw [← List.append_assoc] at hcloses
  exact .inr (.inr (.inl (Signature.isReturnType_eq_false hcloses hpre)))

theorem misses_signature_iff (h : d.WellFormed) (className : String) :
    d.signature.Misses className d.name ↔
      d.signature.isStatement ∨ isReturnType d.signature.returnType = false := by
  have hname : d.signature.name = d.name := rfl
  simp only [Signature.Misses, h.destructor, h.angles, hname]
  simp

/-- A declaration is lost if it looks deleted or its signature misses its name. -/
theorem isLost_iff (h : d.WellFormed) (className : String) :
    d.IsLost className ↔
      isDeleted d.text ∨ containsWord "operator".toList d.text = false ∧
        ∃ s, signature? d.text = some s ∧ s.Misses className d.name := by
  rw [signature?_text h]
  constructor
  · intro hlost
    cases hlost with
    | deleted h => exact .inl h
    | earlier hop hs hm => exact .inr ⟨hop, _, by rw [hs, Option.some_or], hm⟩
    | type hop hs hdepth hm =>
      exact .inr ⟨hop, d.signature, by rw [hs, Option.none_or, if_pos hdepth],
        (misses_signature_iff h className).2 hm⟩
    | later hop hs hdepth hl =>
      obtain ⟨n, hn, hlt⟩ := hdepth
      obtain ⟨s, hl⟩ := Option.isSome_iff_exists.1 hl
      have hdeep : ¬ ∀ n ∈ nesting? d.params, n ≤ 1 := fun hle =>
        Nat.not_le_of_lt hlt (hle n hn)
      exact .inr ⟨hop, s, by rw [hs, Option.none_or, if_neg hdeep, hl], misses_later h hl className⟩
  · rintro (hdeleted | ⟨hop, s, hs, hm⟩)
    · exact .deleted hdeleted
    · cases he : d.earlier? with
      | some s' =>
        rw [he, Option.some_or] at hs
        exact .earlier hop he (Option.some.inj hs ▸ hm)
      | none =>
        rw [he, Option.none_or] at hs
        by_cases hdepth : ∀ n ∈ nesting? d.params, n ≤ 1
        · rw [if_pos hdepth] at hs
          exact .type hop he hdepth ((misses_signature_iff h className).1 (Option.some.inj hs ▸ hm))
        · rw [if_neg hdepth] at hs
          refine .later hop he ?_ (Option.isSome_of_eq_some hs)
          simpa only [not_forall, not_le, exists_prop] using hdepth

/-- A line that declares a member function is answered unless the declaration is lost. -/
theorem answers_readLine_text_iff (h : d.WellFormed) (className : String) (code : List Char) :
    (readLine className code d.text).Answers (String.ofList d.name) ↔ ¬ d.IsLost className := by
  rw [answers_readLine_iff (by simp [text]), isLost_iff h]

end Declaration

end ChaiBind.Header
