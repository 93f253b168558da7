import ChaiBind.FileTree.Basic
import ChaiBind.Path

/-!
# Walking a file tree

A walk lists all files below a directory, each under the path on which it was
met, directories before what comes after them in the order of names. Links are
followed; one that leads nowhere, or to a directory in which the walk already is,
ends the walk. A link uses up one of the links that the way to the directory left
over, so that a walk always ends.
-/

namespace ChaiBind

/-- Why a walk ends early. -/
inductive WalkFault
  | unreachable (path : String) (error : FileError)
  /-- A link leads to a directory around it, shown under the path on which it was met. -/
  | loop (path ancestor : String)
deriving DecidableEq, Repr

namespace FileTree

theorem links_resolveFrom_le {t : FileTree} {purpose : Purpose} {links left : Nat} {a : Address}
    {steps : List Step} {g : Goal}
    (h : t.resolveFrom purpose links a steps = .ok (g, left)) : left ≤ links := by
  fun_induction resolveFrom t purpose links a steps <;> grind

/-! ## Entries of a directory -/

/-- The name of an entry right below an address. -/
def nameBelow? (a : Address) (b : Address) : Option String :=
  match b.getLast? with
  | some name => if b.dropLast = a then some name else none
  | none => none

/-- Texts are ordered by their bytes, that is by their characters. -/
def nameLE (x y : String × Entry) : Bool := x.1 ≤ y.1

/-- What lies in a directory, in the order of names. -/
def children (t : FileTree) (a : Address) : List (String × Entry) :=
  (t.entries.entries.filterMap fun e => (nameBelow? a e.1).map (·, e.2)).mergeSort nameLE

/-- The length of the longest address. -/
def depth (t : FileTree) : Nat := (t.entries.keys.map List.length).foldr max 0

theorem length_le_depth {t : FileTree} {a : Address} (h : a ∈ t.entries.keys) :
    a.length ≤ t.depth := by
  unfold depth
  generalize t.entries.keys = keys at h ⊢
  induction keys with
  | nil => cases h
  | cons b bs ih =>
    simp only [List.map_cons, List.foldr_cons]
    rcases List.mem_cons.1 h with rfl | h
    · exact Nat.le_max_left _ _
    · exact Nat.le_trans (ih h) (Nat.le_max_right _ _)

theorem mem_keys_of_mem_children {t : FileTree} {a : Address} {c : String × Entry}
    (h : c ∈ t.children a) : a ++ [c.1] ∈ t.entries.keys := by
  simp only [children, List.mem_mergeSort, List.mem_filterMap, Option.map_eq_some_iff] at h
  obtain ⟨e, he, name, hname, rfl⟩ := h
  simp only [nameBelow?] at hname
  split at hname
  · rename_i last hlast
    split at hname
    · rename_i hdrop
      cases hname
      obtain ⟨front, hfront⟩ := List.getLast?_eq_some_iff.1 hlast
      rw [← hdrop, hfront, List.dropLast_concat, ← hfront]
      exact List.mem_map.2 ⟨e, he, rfl⟩
    · cases hname
  · cases hname

theorem length_lt_depth_of_mem_children {t : FileTree} {a : Address} {c : String × Entry}
    (h : c ∈ t.children a) : a.length < t.depth := by
  have := length_le_depth (mem_keys_of_mem_children h)
  simp only [List.length_append, List.length_singleton] at this
  omega

/-! ## The walk -/

/-- Where a link in a directory leads, and how many links may still be followed then. -/
def follow (t : FileTree) (links : Nat) (a : Address) (target : String) :
    Except FileError (Goal × Nat) :=
  match links with
  | 0 => .error .tooManyLinks
  | links + 1 => t.resolveFrom .look links (startOf target.toList a) (stepsOf target.toList)

theorem links_follow_lt {t : FileTree} {links left : Nat} {a : Address} {target : String} {g : Goal}
    (h : t.follow links a target = .ok (g, left)) : left < links := by
  cases links with
  | zero => cases h
  | succ n => exact Nat.lt_succ_of_le (links_resolveFrom_le h)

/-- The files below a directory at an address that is shown under a path. `around` holds the
directories in which the walk is, this one first, with their paths. -/
def walkFrom (t : FileTree) (links : Nat) (shown : String) (a : Address)
    (around : List (String × Address)) : Except WalkFault (List String) := do
  let found ← (t.children a).attach.mapM fun ⟨(name, entry), _⟩ =>
    let path := Path.join shown name
    match entry with
    | .file _ => .ok [path]
    | .directory => t.walkFrom links path (a ++ [name]) ((path, a ++ [name]) :: around)
    | .link target =>
      match _follows : t.follow links a target with
      | .error e => .error (.unreachable path e)
      | .ok (.vacant .., _) => .error (.unreachable path .notFound)
      | .ok (.found b .directory, left) =>
        match around.find? (·.2 = b) with
        | some (ancestor, _) => .error (.loop path ancestor)
        | none => t.walkFrom left path b ((path, b) :: around)
      | .ok (.found .., _) => .ok [path]
  return found.flatten
termination_by (links, t.depth - a.length)
decreasing_by
  · rename_i hchild
    have := length_lt_depth_of_mem_children hchild
    refine Prod.Lex.right _ ?_
    simp only [List.length_append, List.length_singleton]
    omega
  · exact Prod.Lex.left _ _ (links_follow_lt _follows)

/-- The files below the directory to which a path leads. -/
def walk (t : FileTree) (path : String) : Except WalkFault (List String) :=
  match t.resolve .look path with
  | .ok (.found a _, links) => t.walkFrom links path a [(path, a)]
  | .ok (.vacant .., _) => .error (.unreachable path .notFound)
  | .error e => .error (.unreachable path e)

end FileTree

end ChaiBind
