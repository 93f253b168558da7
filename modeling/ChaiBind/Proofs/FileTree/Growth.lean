import ChaiBind.FileTree.Edit
import Mathlib.Data.List.Induction

/-!
# Trees that grow

What can lie below what, and how a tree may change without a path leading elsewhere: entries may
come, and files may have other contents, but nothing goes and no link changes.

* `Sound`: what lies below an entry lies in a directory and has a name that paths can lead to.
* `Grows`: whatever lies in one tree lies in another, or something of its kind.
* `Fits`: an edit puts something in a directory where nothing lies, or a file where a file lies.
  Then the tree grows (`Fits.grows`), and what can lie below what stays right (`Fits.sound`).
-/

namespace ChaiBind.FileTree

variable {t t' t'' : FileTree}

/-- A name that an entry of a directory can have. -/
structure IsName (name : String) : Prop where
  nonempty : name ≠ ""
  notHere : name ≠ "."
  notUp : name ≠ ".."
  noSlash : '/' ∉ name.toList
  short : name.utf8ByteSize ≤ maxNameBytes

instance (name : String) : Decidable (IsName name) :=
  decidable_of_iff (name ≠ "" ∧ name ≠ "." ∧ name ≠ ".." ∧ '/' ∉ name.toList ∧
    name.utf8ByteSize ≤ maxNameBytes)
    ⟨fun ⟨h₁, h₂, h₃, h₄, h₅⟩ => ⟨h₁, h₂, h₃, h₄, h₅⟩, fun ⟨h₁, h₂, h₃, h₄, h₅⟩ => ⟨h₁, h₂, h₃, h₄, h₅⟩⟩

/-- Entries lie in directories, and they have names. -/
structure Sound (t : FileTree) : Prop where
  parent : ∀ {a name e}, t.entry? (a ++ [name]) = some e → t.entry? a = some .directory
  isName : ∀ {a name e}, t.entry? (a ++ [name]) = some e → IsName name

theorem entry?_of_ne_nil {a : Address} (ha : a ≠ []) : t.entry? a = t.entries.get? a := if_neg ha

theorem entry?_append_singleton (t : FileTree) (a : Address) (name : String) :
    t.entry? (a ++ [name]) = t.entries.get? (a ++ [name]) :=
  entry?_of_ne_nil (List.append_ne_nil_of_right_ne_nil a (List.cons_ne_nil name []))

theorem entry?_put {a : Address} (ha : a ≠ []) (e : Entry) (b : Address) :
    entry? (t.put a e) b = if b = a then some e else t.entry? b := by
  by_cases hb : b = []
  · rw [hb, if_neg (Ne.symm ha)]
    rfl
  · rw [entry?_of_ne_nil hb, entry?_of_ne_nil hb, put, Table.get?_insert]

theorem entry?_put_self {a : Address} (ha : a ≠ []) (e : Entry) : entry? (t.put a e) a = some e := by
  rw [entry?_put ha, if_pos rfl]

theorem sound_empty (a : Address) : (⟨Table.empty, a⟩ : FileTree).Sound := by
  constructor <;> simp [entry?_append_singleton, Table.empty, Table.get?]

/-- A directory lies in a directory; above the root there is the root. -/
theorem Sound.dropLast (h : t.Sound) {a : Address} {e : Entry} (ha : t.entry? a = some e) :
    t.entry? a.dropLast = some .directory := by
  cases a using List.reverseRecOn with
  | nil => rfl
  | append_singleton a name =>
    rw [List.dropLast_concat]
    exact h.parent ha

/-- Where nothing lies, nothing lies below. -/
theorem Sound.entry?_append_eq_none (h : t.Sound) {a : Address} (ha : t.entry? a = none)
    (b : Address) : t.entry? (a ++ b) = none := by
  induction b using List.reverseRecOn with
  | nil => rwa [List.append_nil]
  | append_singleton b name ih =>
    rw [Option.eq_none_iff_forall_ne_some]
    intro e he
    rw [← List.append_assoc] at he
    rw [h.parent he] at ih
    cases ih

/-! ## Growing -/

/-- Entries of one kind; links of one kind have the same target. -/
inductive SameKind : Entry → Entry → Prop
  | directory : SameKind .directory .directory
  | file (content content' : ByteArray) : SameKind (.file content) (.file content')
  | link (target : String) : SameKind (.link target) (.link target)

theorem SameKind.refl (e : Entry) : SameKind e e := by
  cases e with
  | directory => exact .directory
  | file content => exact .file content content
  | link target => exact .link target

theorem SameKind.ne_directory {e e' : Entry} (h : SameKind e e') (he : e ≠ .directory) :
    e' ≠ .directory := by
  cases h with
  | directory => exact absurd rfl he
  | file | link => nofun

theorem SameKind.trans {e e' e'' : Entry} (h : SameKind e e') (h' : SameKind e' e'') :
    SameKind e e'' := by
  cases h <;> cases h' <;> constructor

/-- Whatever lies in the first tree lies in the second, or something of its kind. -/
structure Grows (t t' : FileTree) : Prop where
  workingDirectory : t'.workingDirectory = t.workingDirectory
  keeps : ∀ {a e}, t.entry? a = some e → ∃ e', t'.entry? a = some e' ∧ SameKind e e'

namespace Grows

theorem refl (t : FileTree) : t.Grows t := ⟨rfl, fun {_ e} he => ⟨e, he, .refl e⟩⟩

theorem trans (h : t.Grows t') (h' : t'.Grows t'') : t.Grows t'' := by
  refine ⟨h'.workingDirectory.trans h.workingDirectory, fun he => ?_⟩
  obtain ⟨e', he', hkind⟩ := h.keeps he
  obtain ⟨e'', he'', hkind'⟩ := h'.keeps he'
  exact ⟨e'', he'', hkind.trans hkind'⟩

theorem directory (h : t.Grows t') {a : Address} (ha : t.entry? a = some .directory) :
    t'.entry? a = some .directory := by
  obtain ⟨e, he, hkind⟩ := h.keeps ha
  cases hkind
  exact he

theorem link (h : t.Grows t') {a : Address} {target : String}
    (ha : t.entry? a = some (.link target)) : t'.entry? a = some (.link target) := by
  obtain ⟨e, he, hkind⟩ := h.keeps ha
  cases hkind
  exact he

end Grows

/-- An entry can be put at an address: nothing lies there and it is in a directory, or the entry is
a file and a file lies there. -/
inductive Fits (t : FileTree) : Address → Entry → Prop
  | vacant {a : Address} {name : String} {e : Entry} (parent : t.entry? a = some .directory)
      (vacant : t.entry? (a ++ [name]) = none) (isName : IsName name) : Fits t (a ++ [name]) e
  | file {a : Address} {content content' : ByteArray} (file : t.entry? a = some (.file content)) :
      Fits t a (.file content')

namespace Fits

variable {a : Address} {e : Entry}

theorem ne_nil (h : t.Fits a e) : a ≠ [] := by
  cases h with
  | vacant => simp
  | file hfile =>
    rintro rfl
    cases hfile

theorem grows (h : t.Fits a e) : t.Grows (t.put a e) := by
  refine ⟨rfl, fun {b e'} hb => ?_⟩
  rw [entry?_put h.ne_nil]
  split
  · rename_i hba
    subst hba
    cases h with
    | vacant hparent hvacant =>
      rw [hvacant] at hb
      cases hb
    | file hfile =>
      rw [hfile] at hb
      cases hb
      exact ⟨_, rfl, .file _ _⟩
  · exact ⟨e', hb, .refl e'⟩

/-- What lies in the tree after an entry has been put there. -/
theorem entry?_put (h : t.Fits a e) (b : Address) :
    entry? (t.put a e) b = if b = a then some e else t.entry? b :=
  FileTree.entry?_put h.ne_nil e b

theorem sound (h : t.Fits a e) (ht : t.Sound) : (t.put a e).Sound := by
  have hbelow : ∀ {b name e'}, entry? (t.put a e) (b ++ [name]) = some e' →
      t.entry? b = some .directory ∧ IsName name := by
    intro b name e' hb
    rw [h.entry?_put] at hb
    split at hb
    · rename_i hba
      cases h with
      | @vacant a name' _ hparent hvacant hname =>
        obtain ⟨rfl, hnames⟩ := List.append_inj' hba rfl
        cases hnames
        exact ⟨hparent, hname⟩
      | file hfile =>
        subst hba
        exact ⟨ht.parent hfile, ht.isName hfile⟩
    · exact ⟨ht.parent hb, ht.isName hb⟩
  exact ⟨fun hb => h.grows.directory (hbelow hb).1, fun hb => (hbelow hb).2⟩

end Fits

end ChaiBind.FileTree
