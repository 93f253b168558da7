import ChaiBind.Proofs.Text.Bytes
import ChaiBind.Proofs.Text.LineBreaks

/-!
# Parts in one layer

A literal, a comment and a character of the code are each read in one layer, and what follows them is
read as in code (`Scan.Reads`). A newline is read as in code also where it ends a literal or a line
comment.

* `reads_lineComment`, `reads_blockComment`: what a comment goes on over.
* `layerAt?_of_reads`: the layer of the bytes of a part.
-/

namespace ChaiBind.Text

namespace Scan

/-- What follows is read as in code. -/
def AtCode (s : Scan) (afterWord : Bool) : List Char → Prop
  | [] => True
  | c :: _ => s = .code afterWord ∨ c = '\n' ∧ ∀ next, s.step '\n' next = (.code, .start)

/-- A part of a text lies in one layer, and what follows it is read as in code. -/
structure Reads (s : Scan) (layer : Layer) (u rest : List Char) : Prop where
  layers : layersPart s u rest.head? = u.map (layer, ·)
  behind : ∀ front, (s.after u rest.head?).AtCode (endsWord (front ++ u)) rest

theorem atCode_code {afterWord afterWord' : Bool} (h : afterWord = afterWord') (rest : List Char) :
    (Scan.code afterWord).AtCode afterWord' rest := by
  subst h
  cases rest with
  | nil => trivial
  | cons => exact .inl rfl

theorem reads_nil_of_newline {s : Scan} (h : ∀ next, s.step '\n' next = (.code, .start))
    (layer : Layer) (cs : List Char) : s.Reads layer [] ('\n' :: cs) where
  layers := rfl
  behind _ := .inr ⟨rfl, h⟩

theorem reads_nil (s : Scan) (layer : Layer) : s.Reads layer [] [] where
  layers := rfl
  behind _ := trivial

theorem Reads.cons {s s' : Scan} {layer : Layer} {c : Char} {u rest : List Char}
    (hstep : s.step c (u ++ rest).head? = (layer, s')) (h : s'.Reads layer u rest) :
    s.Reads layer (c :: u) rest := by
  have hnext : u.head?.or rest.head? = (u ++ rest).head? := List.head?_append.symm
  refine ⟨?_, fun front => ?_⟩
  · rw [layersPart_cons, hnext, hstep, h.layers, List.map_cons]
  · have hbehind := h.behind (front ++ [c])
    rw [List.append_assoc, List.singleton_append] at hbehind
    rwa [after_cons, hnext, hstep]

/-- A character behind which there is code. -/
theorem reads_singleton {s : Scan} {layer : Layer} {c : Char} {rest : List Char}
    (hstep : s.step c rest.head? = (layer, .code c.isAlphanum)) : s.Reads layer [c] rest where
  layers := by rw [layersPart_cons, List.head?_nil, Option.none_or, hstep]; rfl
  behind front := by
    rw [after_cons, List.head?_nil, Option.none_or, hstep]
    exact atCode_code (endsWord_append_singleton front c).symm rest

/-- A character that opens neither a literal nor a comment is code, also where a newline ends a
literal or a line comment. -/
theorem AtCode.step_eq {s : Scan} {afterWord : Bool} {c : Char} {cs : List Char}
    (h : s.AtCode afterWord (c :: cs)) (hliteral : opensLiteral afterWord c = false)
    (hslash : c = '/' → ¬ Opens cs.head?) : s.step c cs.head? = (.code, .code c.isAlphanum) := by
  rcases h with rfl | ⟨rfl, hnewline⟩
  · exact step_code hliteral hslash
  · exact hnewline _

theorem AtCode.eq_code {s : Scan} {afterWord : Bool} {c : Char} {cs : List Char}
    (h : s.AtCode afterWord (c :: cs)) (hc : c ≠ '\n') : s = .code afterWord :=
  h.resolve_right fun hnewline => hc hnewline.1

/-- A line comment goes on up to a newline. -/
theorem reads_lineComment {note rest : List Char} (hnote : '\n' ∉ note) (hrest : StartsLine rest) :
    lineComment.Reads .comment note rest := by
  induction note with
  | nil =>
    rcases hrest.eq_nil_or with rfl | ⟨cs, rfl⟩
    · exact reads_nil _ _
    · exact reads_nil_of_newline (fun _ => rfl) _ cs
  | cons c note ih =>
    rw [List.mem_cons, not_or] at hnote
    exact .cons (if_neg (Ne.symm hnote.1)) (ih hnote.2)

/-- A block comment goes on over a text that does not close it. -/
theorem reads_blockComment {note tail rest : List Char} (h : ¬ ['*', '/'] <:+: note) {star : Bool}
    (hstar : star → note.head? ≠ some '/')
    (htail : ∀ star, (blockComment star).Reads .comment tail rest) :
    (blockComment star).Reads .comment (note ++ tail) rest := by
  induction note generalizing star with
  | nil => exact htail star
  | cons c note ih =>
    have hc : star → c ≠ '/' := fun hs hslash => hstar hs (congrArg some hslash)
    obtain ⟨hstep, hrest, hnext⟩ := step_blockComment h hc ((note ++ tail) ++ rest).head?
    exact .cons hstep (ih hrest hnext)

theorem reads_blockComment_close (star : Bool) (rest : List Char) :
    (blockComment star).Reads .comment ['*', '/'] rest := by
  have hclose : (blockComment true).Reads .comment ['/'] rest := reads_singleton rfl
  exact .cons (by simp [step]) hclose

/-- What is left of a part outside comments is the part. -/
theorem Reads.stripPart_eq {s : Scan} {layer : Layer} {u rest : List Char} (h : s.Reads layer u rest)
    (hlayer : layer ≠ .comment) : stripPart s u rest.head? = u := by
  have hkept : ∀ x ∈ u.map (layer, ·), survives x := by
    rw [List.forall_mem_map]
    intro c _
    simp [survives, hlayer]
  rw [stripPart_eq_map_filter, h.layers, List.filter_eq_self.2 hkept, List.map_map]
  exact List.map_id u

/-- What is left of a comment are its newlines. -/
theorem Reads.stripPart_comment {s : Scan} {u rest : List Char} (h : s.Reads .comment u rest) :
    stripPart s u rest.head? = u.filter (· = '\n') := by
  have hkept : survives ∘ (Layer.comment, ·) = fun c => decide (c = '\n') := by
    funext c
    simp [survives]
  rw [stripPart_eq_map_filter, h.layers, List.filter_map, List.map_map, hkept]
  exact List.map_id _

end Scan

/-! ## The layers of bytes -/

theorem map_snd_layersPart (s : Scan) (cs : List Char) (next : Option Char) :
    (layersPart s cs next).map Prod.snd = cs := by
  induction cs generalizing s with
  | nil => rfl
  | cons c cs ih => rw [layersPart_cons, List.map_cons, ih]

/-- The layer of the character that a byte belongs to. -/
def layerAt? : List (Layer × Char) → Nat → Option Layer
  | [], _ => none
  | x :: xs, i => if i < x.2.utf8Size then some x.1 else layerAt? xs (i - x.2.utf8Size)

theorem layerAt?_append_add (xs ys : List (Layer × Char)) (k : Nat) :
    layerAt? (xs ++ ys) (byteLength (xs.map Prod.snd) + k) = layerAt? ys k := by
  induction xs with
  | nil => rw [List.map_nil, byteLength_nil, Nat.zero_add, List.nil_append]
  | cons x xs ih =>
    rw [List.map_cons, byteLength_cons, List.cons_append, layerAt?, if_neg (by omega), ← ih]
    congr 1
    omega

theorem layerAt?_map_append {layer : Layer} {u : List Char} {k : Nat} (h : k < byteLength u)
    (xs : List (Layer × Char)) : layerAt? (u.map (layer, ·) ++ xs) k = some layer := by
  induction u generalizing k with
  | nil => cases h
  | cons c u ih =>
    rw [byteLength_cons] at h
    rw [List.map_cons, List.cons_append, layerAt?]
    split
    · rfl
    · rename_i hlt
      dsimp only at hlt ⊢
      exact ih (by omega)

/-- The layers behind a part are those that the scan finds from there. -/
theorem layerAt?_layers_append (u v : List Char) (k : Nat) :
    layerAt? (layers (u ++ v)) (byteLength u + k) =
      layerAt? (layersFrom (Scan.start.after u v.head?) v) k := by
  have hu := layerAt?_append_add (layersPart .start u v.head?)
  rw [map_snd_layersPart] at hu
  rw [layers, layersFrom_append, hu]

/-- The bytes of a part that is read in a layer belong to this layer. -/
theorem layerAt?_of_reads {layer : Layer} {front u rest : List Char}
    (h : (Scan.start.after front (u ++ rest).head?).Reads layer u rest) {k : Nat}
    (hk : k < byteLength u) :
    layerAt? (layers (front ++ (u ++ rest))) (byteLength front + k) = some layer := by
  rw [layerAt?_layers_append, layersFrom_append, h.layers, layerAt?_map_append hk]

theorem layerAt?_char {u v : List Char} {c : Char} {i : Nat} (hle : byteLength u ≤ i)
    (hlt : i < byteLength (u ++ [c])) :
    layerAt? (layers (u ++ c :: v)) i = some ((Scan.start.after u (some c)).step c v.head?).1 := by
  obtain ⟨k, rfl⟩ := Nat.exists_eq_add_of_le hle
  have hk : k < c.utf8Size := by
    rw [byteLength_append_singleton] at hlt
    omega
  rw [layerAt?_layers_append, List.head?_cons, layersFrom, layerAt?, if_pos hk]

end ChaiBind.Text
