import ChaiBind.Proofs.Header.NamespaceOpenings
import ChaiBind.Proofs.Header.ReturnTypes

/-!
# Openings of namespaces

A namespace is opened by the word `namespace`, blanks, a chain of identifiers, and a brace that only
blanks may come before (`namespaceOpening?_eq_some_iff`). What stands behind the brace does not
matter for the opening, and so nothing does that stands behind a slash
(`namespaceOpening?_append_slash`).
-/

namespace ChaiBind.Header

open Text

/-- Identifiers with `::` between them. -/
inductive IsNameChain : List Char → Prop
  | name {name : List Char} (h : IsIdentifier name) : IsNameChain name
  | qualified {name chain : List Char} (h : IsIdentifier name) (hchain : IsNameChain chain) :
      IsNameChain (name ++ ':' :: ':' :: chain)

namespace IsNameChain

variable {chain : List Char}

theorem ne_nil (h : IsNameChain chain) : chain ≠ [] := by
  cases h with
  | name h =>
    rintro rfl
    cases h
  | qualified h _ => exact List.append_ne_nil_of_right_ne_nil _ (List.cons_ne_nil _ _)

/-- A chain is made of word characters and colons. -/
theorem isWord_or_of_mem (h : IsNameChain chain) {c : Char} (hc : c ∈ chain) :
    isWord c ∨ c = ':' := by
  induction h with
  | name h => exact .inl (h.isWord_of_mem hc)
  | qualified h _ ih =>
    simp only [List.mem_append, List.mem_cons] at hc
    rcases hc with hc | hc | hc | hc
    · exact .inl (h.isWord_of_mem hc)
    · exact .inr hc
    · exact .inr hc
    · exact ih hc

theorem notMem (h : IsNameChain chain) {c : Char} (hword : isWord c = false) (hcolon : c ≠ ':') :
    c ∉ chain := by
  intro hc
  rcases h.isWord_or_of_mem hc with hc | hc
  · rw [hword] at hc
    cases hc
  · exact hcolon hc

theorem any_head?_isBlank (h : IsNameChain chain) (v : List Char) :
    (chain ++ v).head?.any isBlank = false := by
  cases h with
  | name h => exact any_head?_identifier h (fun c => isBlank_eq_false_of_isWord) v
  | qualified h _ =>
    rw [List.append_assoc]
    exact any_head?_identifier h (fun c => isBlank_eq_false_of_isWord) _

end IsNameChain

/-! ## Chains in a text -/

theorem takeQualifiers_eq (n : Nat) (cs : List Char) :
    (takeQualifiers n cs).1 ++ (takeQualifiers n cs).2 = cs ∧
      ∀ name, IsIdentifier name → IsNameChain (name ++ (takeQualifiers n cs).1) := by
  have hstop : ∀ name, IsIdentifier name → IsNameChain (name ++ []) := fun name h => by
    rw [List.append_nil]
    exact .name h
  induction n generalizing cs with
  | zero => exact ⟨rfl, hstop⟩
  | succ n ih =>
    rw [takeQualifiers_succ]
    cases hcs : ("::".toList.isPrefixOf? cs).bind takeIdentifier with
    | none => exact ⟨rfl, hstop⟩
    | some p =>
      obtain ⟨ds, hds, hp⟩ := Option.bind_eq_some_iff.1 hcs
      obtain ⟨hname, -, rfl⟩ := takeIdentifier_eq_some hp
      obtain rfl := List.isPrefixOf?_eq_some_iff_append_eq.1 hds
      obtain ⟨hsplit, hchain⟩ := ih p.2
      refine ⟨?_, fun name h => .qualified h (hchain p.1 hname)⟩
      show ':' :: ':' :: (p.1 ++ (takeQualifiers n p.2).1 ++ (takeQualifiers n p.2).2) = _
      rw [List.append_assoc, hsplit]
      rfl

theorem takeNameChain_eq (cs : List Char) :
    takeNameChain cs = (takeIdentifier cs).map fun p =>
      (p.1 ++ (takeQualifiers p.2.length p.2).1, (takeQualifiers p.2.length p.2).2) := rfl

theorem takeNameChain_eq_some {cs chain rest : List Char}
    (h : takeNameChain cs = some (chain, rest)) : IsNameChain chain ∧ cs = chain ++ rest := by
  rw [takeNameChain_eq] at h
  obtain ⟨p, hp, hchain⟩ := Option.map_eq_some_iff.1 h
  obtain ⟨hname, -, rfl⟩ := takeIdentifier_eq_some hp
  obtain ⟨hsplit, hmore⟩ := takeQualifiers_eq p.2.length p.2
  obtain ⟨rfl, rfl⟩ := Prod.mk.inj hchain
  exact ⟨hmore p.1 hname, by rw [List.append_assoc, hsplit]⟩

/-- A chain that starts a text, with neither a word nor a colon going on behind it. -/
theorem takeNameChain_append {chain rest : List Char} (h : IsNameChain chain)
    (hword : rest.head?.any isWord = false) (hcolon : rest.head? ≠ some ':') :
    takeNameChain (chain ++ rest) = some (chain, rest) := by
  induction h with
  | name h =>
    have hstop : ∀ ds, rest ≠ ':' :: ':' :: ds := by
      rintro ds rfl
      exact hcolon rfl
    rw [takeNameChain_eq, takeIdentifier_append h hword, Option.map_some,
      takeQualifiers_of_ne hstop, List.append_nil]
  | @qualified name chain h _ ih =>
    obtain ⟨p, hp, hmore⟩ := Option.map_eq_some_iff.1 ih
    have hcolons : (':' :: ':' :: (chain ++ rest)).head?.any isWord = false := rfl
    have hprefix : "::".toList.isPrefixOf? (':' :: ':' :: (chain ++ rest)) = some (chain ++ rest) :=
      List.isPrefixOf?_eq_some_iff_append_eq.2 rfl
    -- there are more steps than the chain behind the colons needs
    have hlength := congrArg List.length (append_of_takeIdentifier hp)
    obtain ⟨m, hm⟩ : ∃ m, (':' :: ':' :: (chain ++ rest)).length = p.2.length + m + 1 := by
      refine ⟨p.1.length + 1, ?_⟩
      rw [List.length_cons, List.length_cons, ← hlength, List.length_append]
      omega
    obtain ⟨hchain, hrest⟩ := Prod.mk.inj hmore
    rw [List.append_assoc, List.cons_append, List.cons_append, takeNameChain_eq,
      takeIdentifier_append h hcolons, Option.map_some, hm, takeQualifiers_succ, hprefix,
      Option.bind_some, hp]
    simp only [takeQualifiers_add (Nat.le_refl p.2.length), List.cons_append, hchain, hrest]

/-! ## Openings in a text -/

/-- An opening is the word, blanks, a chain, perhaps blanks and a brace. -/
structure IsOpening (text chain : List Char) : Prop where
  isChain : IsNameChain chain
  spelled : ∃ between behind, between ≠ [] ∧ (∀ c ∈ between, isBlank c) ∧
    (∀ c ∈ behind, isBlank c) ∧ text = "namespace".toList ++ between ++ chain ++ behind ++ ['{']

theorem namespaceOpening?_eq (p : Cursor) :
    namespaceOpening? p =
      if p.before.any isWord then none
      else ("namespace".toList.isPrefixOf? p.rest).bind fun rest =>
        if rest.head?.any isBlank then
          (takeNameChain (trimStart rest)).bind fun q =>
            if (trimStart q.2).head? = some '{' then some q.1 else none
        else none := by
  rw [namespaceOpening?]
  cases p.before.any isWord with
  | true => rfl
  | false =>
    cases "namespace".toList.isPrefixOf? p.rest with
    | none => rfl
    | some rest =>
      cases hblank : rest.head?.any isBlank with
      | false => simp [hblank]
      | true =>
        cases hchain : takeNameChain (trimStart rest) with
        | none => simp [hblank, hchain]
        | some q => by_cases hbrace : (trimStart q.2).head? = some '{' <;> simp [*]

/-- What is left behind blanks starts with no blank. -/
theorem exists_blanks_append (cs : List Char) :
    ∃ blanks, (∀ c ∈ blanks, isBlank c) ∧ cs = blanks ++ trimStart cs :=
  ⟨leadingBlank cs, fun _ hc => List.mem_takeWhile_imp hc, (leadingBlank_append_trimStart cs).symm⟩

theorem exists_isOpening {p : Cursor} {chain : List Char} (h : namespaceOpening? p = some chain) :
    ∃ text rest, IsOpening text chain ∧ p.rest = text ++ rest := by
  simp only [namespaceOpening?_eq, Option.ite_none_left_eq_some, Option.bind_eq_some_iff,
    Option.ite_none_right_eq_some, Option.some.injEq] at h
  obtain ⟨-, cs, hword, hblank, q, hchain, hbrace, rfl⟩ := h
  obtain ⟨hisChain, hq⟩ := takeNameChain_eq_some hchain
  obtain ⟨between, hbetween, hcs⟩ := exists_blanks_append cs
  obtain ⟨behind, hbehind, hq2⟩ := exists_blanks_append q.2
  obtain ⟨rest, hrest⟩ := List.head?_eq_some_iff.1 hbrace
  have hne : between ≠ [] := by
    rintro rfl
    have hhead := hisChain.any_head?_isBlank q.2
    rw [← hq, ← List.nil_append (trimStart cs), ← hcs, hblank] at hhead
    cases hhead
  refine ⟨"namespace".toList ++ between ++ q.1 ++ behind ++ ['{'], rest,
    ⟨hisChain, between, behind, hne, hbetween, hbehind, rfl⟩, ?_⟩
  rw [← List.isPrefixOf?_eq_some_iff_append_eq.1 hword, hcs, hq, hq2, hrest]
  simp only [List.append_assoc, List.singleton_append]

/-- Neither a word nor a colon goes on in front of a brace behind blanks. -/
theorem head?_blanks_append_brace {blanks : List Char} (h : ∀ c ∈ blanks, isBlank c)
    (rest : List Char) :
    (blanks ++ '{' :: rest).head?.any isWord = false ∧ (blanks ++ '{' :: rest).head? ≠ some ':' := by
  cases blanks with
  | nil => exact ⟨rfl, by simp⟩
  | cons c cs =>
    have hc := h c List.mem_cons_self
    refine ⟨isWord_eq_false_of_isBlank hc, fun hcolon => ?_⟩
    obtain rfl := Option.some.inj hcolon
    exact absurd hc (by decide)

theorem IsOpening.namespaceOpening?_eq {text chain : List Char} (h : IsOpening text chain)
    {p : Cursor} (hbefore : p.before.any isWord = false) {rest : List Char}
    (hrest : p.rest = text ++ rest) : namespaceOpening? p = some chain := by
  obtain ⟨hisChain, between, behind, hne, hbetween, hbehind, rfl⟩ := h
  have hword : "namespace".toList.isPrefixOf? p.rest =
      some (between ++ (chain ++ (behind ++ '{' :: rest))) := by
    refine List.isPrefixOf?_eq_some_iff_append_eq.2 ?_
    rw [hrest]
    simp only [List.append_assoc, List.singleton_append]
  have hblank : (between ++ (chain ++ (behind ++ '{' :: rest))).head?.any isBlank = true := by
    obtain ⟨c, cs, rfl⟩ := List.exists_cons_of_ne_nil hne
    exact hbetween c List.mem_cons_self
  obtain ⟨hend, hcolon⟩ := head?_blanks_append_brace hbehind rest
  have hstart : trimStart (between ++ (chain ++ (behind ++ '{' :: rest))) =
      chain ++ (behind ++ '{' :: rest) :=
    trimStart_blanks_append hbetween (hisChain.any_head?_isBlank _)
  have hbrace : trimStart (behind ++ '{' :: rest) = '{' :: rest :=
    trimStart_blanks_append hbehind rfl
  rw [Header.namespaceOpening?_eq, if_neg (by simp [hbefore]), hword, Option.bind_some,
    if_pos hblank, hstart, takeNameChain_append hisChain hend hcolon, Option.bind_some, hbrace]
  exact if_pos rfl

theorem namespaceOpening?_eq_some_iff {p : Cursor} {chain : List Char} :
    namespaceOpening? p = some chain ↔
      p.before.any isWord = false ∧ ∃ text rest, IsOpening text chain ∧ p.rest = text ++ rest := by
  constructor
  · intro h
    refine ⟨?_, exists_isOpening h⟩
    rw [namespaceOpening?_eq, Option.ite_none_left_eq_some, Bool.not_eq_true] at h
    exact h.1
  · rintro ⟨hbefore, text, rest, h, hrest⟩
    exact h.namespaceOpening?_eq hbefore hrest

/-- An opening starts with its word and ends with its brace, with no other brace, no quote and no
slash. -/
theorem IsOpening.exists_append {text chain : List Char} (h : IsOpening text chain) :
    ∃ head, text = head ++ ['{'] ∧ head.head? = some 'n' ∧
      ∀ c ∈ ['{', '}', '"', '\'', '/'], c ∉ head := by
  obtain ⟨hisChain, between, behind, -, hbetween, hbehind, rfl⟩ := h
  refine ⟨_, rfl, rfl, fun c hc => ?_⟩
  have hnone : ∀ c ∈ ['{', '}', '"', '\'', '/'],
      c ∉ "namespace".toList ∧ isWord c = false ∧ c ≠ ':' ∧ isBlank c = false := by decide
  obtain ⟨hnamespace, hword, hcolon, hblank⟩ := hnone c hc
  simp only [List.mem_append, not_or]
  exact ⟨⟨⟨hnamespace, notMem_of_blanks hbetween hblank⟩, hisChain.notMem hword hcolon⟩,
    notMem_of_blanks hbehind hblank⟩

/-- An opening ends in front of a slash. -/
theorem namespaceOpening?_append_slash (before : Option Char) (offset : Nat) (u v : List Char) :
    namespaceOpening? ⟨before, offset, u ++ '/' :: v⟩ = namespaceOpening? ⟨before, offset, u⟩ := by
  refine Option.ext fun chain => ?_
  simp only [namespaceOpening?_eq_some_iff]
  refine and_congr_right fun _ => ⟨?_, ?_⟩
  · rintro ⟨text, rest, h, hrest⟩
    obtain ⟨head, rfl, -, hnone⟩ := h.exists_append
    have hnot : '/' ∉ head ++ ['{'] := by simpa using hnone '/' (by decide)
    obtain ⟨rest, rfl, -⟩ := exists_of_append_cons_eq hnot hrest
    exact ⟨_, rest, h, rfl⟩
  · rintro ⟨text, rest, h, rfl⟩
    exact ⟨text, rest ++ '/' :: v, h, List.append_assoc ..⟩

end ChaiBind.Header
