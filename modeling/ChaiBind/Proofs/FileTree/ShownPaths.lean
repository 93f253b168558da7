import ChaiBind.Proofs.FileTree.Walks
import ChaiBind.Proofs.Text.ByteOrder

/-!
# Shown paths in order

A walk shows what lies below a directory under the path of the directory with the names joined to
it. Such a path has the components of the directory, and the names behind them
(`components_shownBelow`), so that what comes first by its names comes first by the bytes of its
components (`precedes_shownBelow`), and it leads where it stands if it is not too long
(`Shows.canonical?_below`).
-/

namespace ChaiBind

open Text

namespace Path

/-! ## Components -/

/-- The components that texts between slashes are. -/
def componentsFrom (isFirst : Bool) : List (List Char) → List Component
  | [] => []
  | text :: texts => (componentOf isFirst text).toList ++ componentsFrom false texts

theorem map_component_piecesFrom (isFirst : Bool) (start : Nat) (texts : List (List Char)) :
    (piecesFrom isFirst start texts).map (·.component) = componentsFrom isFirst texts := by
  induction texts generalizing isFirst start with
  | nil => rfl
  | cons text texts ih =>
    rw [piecesFrom, List.map_append, ih, componentsFrom]
    cases componentOf isFirst text <;> rfl

theorem piecesFrom_cons (isFirst : Bool) (start : Nat) (text : List Char)
    (texts : List (List Char)) : piecesFrom isFirst start (text :: texts) =
      ((componentOf isFirst text).map fun c => ⟨c, start, start + text.length⟩).toList ++
        piecesFrom false (start + text.length + 1) texts := rfl

theorem piecesFrom_append (isFirst : Bool) (start : Nat) {texts : List (List Char)}
    (hne : texts ≠ []) (more : List (List Char)) :
    piecesFrom isFirst start (texts ++ more) = piecesFrom isFirst start texts ++
      piecesFrom false (start + (['/'].intercalate texts).length + 1) more := by
  induction texts generalizing isFirst start with
  | nil => exact absurd rfl hne
  | cons text texts ih =>
    cases texts with
    | nil => simp [piecesFrom]
    | cons text' texts =>
      have hlength : start + text.length + 1 + (['/'].intercalate (text' :: texts)).length =
          start + (['/'].intercalate (text :: text' :: texts)).length := by
        rw [intercalate_cons_char, List.length_append, List.length_cons]
        omega
      rw [List.cons_append, piecesFrom_cons, ih false _ (List.cons_ne_nil _ _), hlength,
        piecesFrom_cons isFirst start text, List.append_assoc]

theorem componentsFrom_append {texts : List (List Char)} (hne : texts ≠ []) (isFirst : Bool)
    (more : List (List Char)) : componentsFrom isFirst (texts ++ more) =
      componentsFrom isFirst texts ++ componentsFrom false more := by
  rw [← map_component_piecesFrom isFirst 0, piecesFrom_append _ _ hne, List.map_append,
    map_component_piecesFrom, map_component_piecesFrom]

/-- A path has its root and what its texts between slashes are. -/
theorem pieces_eq (path : List Char) : pieces path =
    (if path.head? = some '/' then [⟨.root, 0, 1⟩] else []) ++
      piecesFrom (path.head? ≠ some '/') 0 (Text.pieces (· = '/') path) := by
  unfold pieces
  split
  · simp
  · rename_i hroot
    have hhead : path.head? ≠ some '/' := by
      intro h
      obtain ⟨rest, rfl⟩ := List.head?_eq_some_iff.1 h
      exact hroot rest rfl
    simp [hhead]

theorem components_eq (path : List Char) : components path =
    (if path.head? = some '/' then [.root] else []) ++
      componentsFrom (path.head? ≠ some '/') (Text.pieces (· = '/') path) := by
  rw [components, pieces_eq, List.map_append, map_component_piecesFrom]
  split <;> rfl

/-- What stands behind a slash has the pieces of a text that starts no path, moved to its place. -/
theorem pieces_append_slash (u v : List Char) : pieces (u ++ '/' :: v) =
    pieces (u ++ ['/']) ++ piecesFrom false (u.length + 1) (Text.pieces (· = '/') v) := by
  have hhead : (u ++ '/' :: v).head? = (u ++ ['/']).head? := by
    cases u <;> rfl
  rw [pieces_eq, pieces_eq, hhead, pieces_append_sep u (by simp), pieces_append_sep u (by simp),
    piecesFrom_append _ _ (pieces_ne_nil _ u), piecesFrom_append _ _ (pieces_ne_nil _ u),
    intercalate_pieces, Nat.zero_add]
  simp only [List.append_assoc]
  rfl

/-- What stands behind a slash has the components of a text that starts no path. -/
theorem components_append_slash (u v : List Char) : components (u ++ '/' :: v) =
    components (u ++ ['/']) ++ componentsFrom false (Text.pieces (· = '/') v) := by
  rw [components, pieces_append_slash, List.map_append, map_component_piecesFrom]
  rfl

/-- A slash at the end of a path counts for nothing unless it is the path. -/
theorem components_append_slash_nil {u : List Char} (hu : u ≠ []) :
    components (u ++ ['/']) = components u := by
  obtain ⟨c, cs, rfl⟩ := List.exists_cons_of_ne_nil hu
  rw [components_eq, components_eq, pieces_append_sep (c :: cs) (by simp),
    componentsFrom_append (pieces_ne_nil _ _)]
  exact congrArg _ (List.append_nil _)

/-- A text that is a name wherever it stands between slashes. -/
structure IsNormal (name : String) : Prop where
  nonempty : name ≠ ""
  notHere : name ≠ "."
  notParent : name ≠ ".."
  noSlash : '/' ∉ name.toList

instance (name : String) : Decidable (IsNormal name) :=
  decidable_of_iff (name ≠ "" ∧ name ≠ "." ∧ name ≠ ".." ∧ '/' ∉ name.toList)
    ⟨fun ⟨h₁, h₂, h₃, h₄⟩ => ⟨h₁, h₂, h₃, h₄⟩, fun ⟨h₁, h₂, h₃, h₄⟩ => ⟨h₁, h₂, h₃, h₄⟩⟩

namespace IsNormal

variable {name : String} (h : IsNormal name)
include h

theorem toList_ne_nil : name.toList ≠ [] := fun heq => h.nonempty (String.toList_inj.1 heq)

theorem componentOf_toList (isFirst : Bool) :
    componentOf isFirst name.toList = some (.name name.toList) := by
  have hhere : name.toList ≠ ['.'] := fun heq =>
    h.notHere (String.toList_inj.1 (heq.trans String.toList_ofList.symm))
  have hparent : name.toList ≠ ['.', '.'] := fun heq =>
    h.notParent (String.toList_inj.1 (heq.trans String.toList_ofList.symm))
  rw [componentOf, if_neg h.toList_ne_nil, if_neg hhere, if_neg hparent]

theorem pieces_toList : Text.pieces (· = '/') name.toList = [name.toList] := by
  refine pieces_of_forall fun c hc => decide_eq_false ?_
  rintro rfl
  exact h.noSlash hc

end IsNormal

/-- A name in a directory is the last component, whatever slash the directory ends in. -/
theorem components_join {shown name : String} (hshown : shown ≠ "") (h : IsNormal name) :
    components (Path.join shown name).toList = components shown.toList ++ [.name name.toList] := by
  have hne : shown.toList ≠ [] := fun heq => hshown (String.toList_inj.1 heq)
  have hname : componentsFrom false (Text.pieces (· = '/') name.toList) = [.name name.toList] := by
    rw [h.pieces_toList, componentsFrom, h.componentOf_toList]
    rfl
  rw [FileTree.toList_join]
  split
  · rename_i hlast
    obtain ⟨u, hu⟩ := List.getLast?_eq_some_iff.1 hlast
    rw [hu, List.append_assoc, List.singleton_append, components_append_slash, hname]
  · rw [components_append_slash, components_append_slash_nil hne, hname]

end Path

namespace FileTree

open ChaiBind.Path

theorem IsName.isNormal {name : String} (h : IsName name) : IsNormal name :=
  ⟨h.nonempty, h.notHere, h.notUp, h.noSlash⟩

/-- The path under which something below a directory is shown, if the directory is shown under a
path. -/
def shownBelow (shown : String) (below : Address) : String := below.foldl Path.join shown

theorem shownBelow_append_singleton (shown : String) (below : Address) (name : String) :
    shownBelow shown (below ++ [name]) = Path.join (shownBelow shown below) name := by
  rw [shownBelow, List.foldl_append]
  rfl

theorem shownBelow_ne_empty {shown : String} (hshown : shown ≠ "") (below : Address) :
    shownBelow shown below ≠ "" := by
  induction below using List.reverseRecOn with
  | nil => exact hshown
  | append_singleton below name ih =>
    rw [shownBelow_append_singleton]
    exact join_ne_empty ih name

theorem components_shownBelow {shown : String} (hshown : shown ≠ "") {below : Address}
    (h : ∀ name ∈ below, IsNormal name) : components (shownBelow shown below).toList =
      components shown.toList ++ below.map (.name ·.toList) := by
  induction below using List.reverseRecOn with
  | nil => exact (List.append_nil _).symm
  | append_singleton below name ih =>
    rw [List.forall_mem_append] at h
    rw [shownBelow_append_singleton, components_join (shownBelow_ne_empty hshown below)
      (h.2 name List.mem_cons_self), ih h.1, List.map_append, List.append_assoc]
    rfl

end FileTree

namespace Path

/-! ## The order of paths -/

/-- The bytes of a component. -/
def Component.bytes : Component → List UInt8
  | .root => utf8Bytes ['/']
  | .here => utf8Bytes ['.']
  | .parent => utf8Bytes ['.', '.']
  | .name text => utf8Bytes text

/-- A path comes before another one if it does component by component, each compared by its
bytes. -/
def Precedes (p q : String) : Prop :=
  (components p.toList).map Component.bytes < (components q.toList).map Component.bytes

instance (p q : String) : Decidable (Precedes p q) :=
  inferInstanceAs (Decidable ((components p.toList).map Component.bytes <
    (components q.toList).map Component.bytes))

theorem not_precedes_self (p : String) : ¬ Precedes p p := List.lt_irrefl _

end Path

namespace FileTree

open ChaiBind.Path

/-- What comes before something else by the names below a directory is shown before it. -/
theorem precedes_shownBelow {shown : String} (hshown : shown ≠ "") {below below' : Address}
    (h : ∀ name ∈ below, IsName name) (h' : ∀ name ∈ below', IsName name) (hlt : below < below') :
    Precedes (shownBelow shown below) (shownBelow shown below') := by
  have hnames : ∀ b : Address, (b.map fun name => Component.name name.toList).map Component.bytes =
      b.map fun name => utf8Bytes name.toList := fun b => List.map_map
  rw [Precedes, components_shownBelow hshown fun name hname => (h name hname).isNormal,
    components_shownBelow hshown fun name hname => (h' name hname).isNormal, List.map_append,
    List.map_append, hnames, hnames]
  exact List.append_left_lt (List.map_lt (fun _ _ => utf8Bytes_lt_of_lt) hlt)

/-- A directory comes where its name does and not where its path does as a text. -/
example : Precedes "src/a/z.h" "src/a.h" ∧ "src/a.h" < "src/a/z.h" := by decide +kernel

/-! ## Where shown paths lead -/

variable {t : FileTree} {shown : String} {a : Address} {below : Address} {links : Nat} {e : Entry}

/-- What something lies below is a directory. -/
theorem Sound.directory_of_append (ht : t.Sound) (hne : below ≠ [])
    (h : t.entry? (a ++ below) = some e) : t.entry? a = some .directory := by
  induction below using List.reverseRecOn generalizing e with
  | nil => exact absurd rfl hne
  | append_singleton below name ih =>
    rw [← List.append_assoc] at h
    have hparent := ht.parent h
    by_cases hbelow : below = []
    · rwa [hbelow, List.append_nil] at hparent
    · exact ih hbelow hparent

/-- Entries have names all the way. -/
theorem Sound.isName_of_mem_below (ht : t.Sound) (h : t.entry? (a ++ below) = some e) :
    ∀ name ∈ below, IsName name := by
  induction below using List.reverseRecOn generalizing e with
  | nil => exact List.forall_mem_nil _
  | append_singleton below name ih =>
    rw [← List.append_assoc] at h
    rw [List.forall_mem_append, List.forall_mem_singleton]
    exact ⟨ih (ht.parent h), ht.isName h⟩

/-- The path of a directory leads to it, if its length does not matter. -/
theorem Shows.directory_below (hs : t.Shows shown a links) (ht : t.Sound)
    (h : t.entry? (a ++ below) = some .directory) :
    t.Shows (shownBelow shown below) (a ++ below) links := by
  induction below using List.reverseRecOn with
  | nil => rwa [List.append_nil]
  | append_singleton below name ih =>
    rw [← List.append_assoc] at h ⊢
    rw [shownBelow_append_singleton]
    have hway := way_of_child (ht.parent h) (ht.isName h) h nofun links
    exact (ih (ht.parent h)).join (ht.isName h) hway

/-- A path that can be used leads to what is shown under it. -/
theorem Shows.canonical?_below (hs : t.Shows shown a links) (ht : t.Sound)
    (h : t.entry? (a ++ below) = some e) (hne : ∀ target, e ≠ .link target) (hbelow : below ≠ [])
    (husable : Usable (shownBelow shown below)) :
    t.canonical? (shownBelow shown below) = some (a ++ below) := by
  obtain ⟨below, name, rfl⟩ := (List.eq_nil_or_concat' below).resolve_left hbelow
  rw [← List.append_assoc] at h ⊢
  rw [shownBelow_append_singleton] at husable ⊢
  have hshows := hs.directory_below ht (ht.parent h)
  have hway := way_of_child (ht.parent h) (ht.isName h) h hne links
  have hfound := hshows.way.append hway
  rw [← startOf_join hshows.nonempty name, ← stepsOf_join _ (ht.isName h)] at hfound
  exact canonical?_eq_some_iff.2 ⟨e, find_of_way husable hfound⟩

end FileTree

end ChaiBind
