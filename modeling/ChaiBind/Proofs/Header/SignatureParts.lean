import ChaiBind.Proofs.Header.Search
import ChaiBind.Proofs.Text.Positions

/-!
# The parts of a signature

A line is made up of the parts of its signature: what comes before the name, the
name, blanks, the parameter list in its parentheses and what comes after it
(`signature?_eq_some`). The name is an identifier that no word character comes
right before.
-/

namespace ChaiBind.Header

open Text

/-- A parameter list that can be read ends with its closing parenthesis. -/
theorem takeParams_eq_some {nested : Bool} {cs params rest : List Char}
    (h : takeParams nested cs = some (params, rest)) : cs = params ++ ')' :: rest := by
  induction cs generalizing nested params with
  | nil => cases h
  | cons c cs ih =>
    have hnext : ∀ {nested : Bool},
        (takeParams nested cs).map (fun p => (c :: p.1, p.2)) = some (params, rest) →
          c :: cs = params ++ ')' :: rest := by
      intro nested h
      obtain ⟨⟨params', rest'⟩, h', heq⟩ := Option.map_eq_some_iff.1 h
      cases heq
      rw [ih h', List.cons_append]
    rw [takeParams] at h
    split at h
    · split at h
      · cases h
      · exact hnext h
    · split at h
      · rename_i hclose
        split at h
        · exact hnext h
        · cases h
          rw [hclose, List.nil_append]
      · exact hnext h

/-- The parts make up the line, with blanks between the name and its list. -/
structure Signature.Fits (s : Signature) (gap line : List Char) : Prop where
  line : line = s.before ++ (s.name ++ (gap ++ '(' :: (s.params ++ ')' :: s.after)))
  name : IsIdentifier s.name
  gap : ∀ c ∈ gap, isBlank c
  apart : s.before.getLast?.any isWord = false

theorem signatureAt?_eq_some {passed cs : List Char} {s : Signature}
    (h : signatureAt? passed cs = some s) :
    s.before = passed.reverse ∧ ∃ gap, s.Fits gap (passed.reverse ++ cs) := by
  obtain ⟨_, hguard, h⟩ := Option.bind_eq_some_iff.1 h
  obtain ⟨⟨name, rest⟩, hname, h⟩ := Option.bind_eq_some_iff.1 h
  obtain ⟨list, hlist, h⟩ := Option.bind_eq_some_iff.1 h
  obtain ⟨⟨params, after⟩, hparams, h⟩ := Option.bind_eq_some_iff.1 h
  obtain rfl := Option.some.inj h
  obtain ⟨hidentifier, -, rfl⟩ := takeIdentifier_eq_some hname
  have hopen : trimStart rest = '(' :: list :=
    (List.isPrefixOf?_eq_some_iff_append_eq.1 hlist).symm
  have hrest : rest = leadingBlank rest ++ '(' :: (params ++ ')' :: after) := by
    rw [← takeParams_eq_some hparams, ← hopen, leadingBlank_append_trimStart]
  refine ⟨rfl, leadingBlank rest, ?_, hidentifier, fun c hc => List.mem_takeWhile_imp hc, ?_⟩
  · rw [← hrest]
  · rw [List.getLast?_reverse]
    by_contra hword
    rw [Bool.not_eq_false] at hword
    rw [hword] at hguard
    cases hguard

theorem signatureFrom?_eq_some {passed cs : List Char} {s : Signature}
    (h : signatureFrom? passed cs = some s) : ∃ gap, s.Fits gap (passed.reverse ++ cs) := by
  induction cs generalizing passed with
  | nil => cases h
  | cons c cs ih =>
    rw [signatureFrom?, Option.or_eq_some_iff] at h
    rcases h with h | ⟨-, h⟩
    · exact (signatureAt?_eq_some h).2
    · have hfits := ih h
      rwa [List.reverse_cons, List.append_assoc, List.singleton_append] at hfits

/-- The signature of a line has its parts from there. -/
theorem signature?_eq_some {line : List Char} {s : Signature} (h : signature? line = some s) :
    ∃ gap, s.Fits gap line :=
  signatureFrom?_eq_some h

end ChaiBind.Header
