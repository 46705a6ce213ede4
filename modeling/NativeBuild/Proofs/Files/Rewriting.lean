import NativeBuild.Proofs.Files.Renewal

/-!
# Files that are written over and over

A file that can be opened for writing can be opened again once it is written, by the same path and
at the same place, whatever links the path goes through. What is logged to other places meanwhile
does not change that, nor what is read from the file.
-/
namespace NativeBuild

namespace FileSystem

variable {fs fs' : FileSystem} {places : List Location} {p : Path}

/-- A file can be opened for writing at a path, and it is at none of some places. -/
structure Opens (places : List Location) (p : Path) (fs : FileSystem) : Prop where
  leaf : ∃ at_, fs.resolveLeaf p = .ok (.name at_ false)
  place : ∃ place, fs.resolve true p = .ok place ∧ place.Fresh places

theorem Opens.fresh (h : Opens places p fs) : Fresh places p fs := by
  obtain ⟨place, hresolve, hplace⟩ := h.place
  exact fresh_of_resolve hresolve hplace

/-- Where all walks that enter a directory still enter it, so does the walk to the parent of a last
component. -/
theorem resolveLeaf_of_walkLinks {leaf : Leaf} (h : fs.resolveLeaf p = .ok leaf)
    (hhere : fs'.here = fs.here)
    (hwalks : ∀ dir names at_ e,
      fs.walkLinks true maxLinks dir (names ++ [Path.dot]) = .ok (.entry at_ e) →
      ∃ e', fs'.walkLinks true maxLinks dir (names ++ [Path.dot]) = .ok (.entry at_ e')) :
    fs'.resolveLeaf p = .ok leaf := by
  obtain ⟨e, hrefused⟩ | hroot | ⟨hne, hlength, before, last, hcomponents⟩ := resolveLeaf_cases p
  · cases h.symm.trans (hrefused fs true).2
  · rw [← h, hroot, hroot]
  rw [resolveLeaf_eq hne hlength hcomponents] at h ⊢
  rw [hhere]
  cases hwalk : fs.walkLinks true maxLinks (Path.start fs.here (visible p))
      (before ++ [Path.dot]) with
  | error e =>
    rw [hwalk] at h
    cases h
  | ok parent =>
    rw [hwalk] at h
    cases parent with
    | free at_ => cases h
    | entry at_ e =>
      obtain ⟨e', hwalk'⟩ := hwalks _ _ _ _ hwalk
      rw [hwalk']
      exact h

/-- What is logged elsewhere does not keep a file from being opened. -/
theorem LoggedAt.opens (hlog : LoggedAt places fs fs') (h : Opens places p fs) :
    Opens places p fs' := by
  obtain ⟨at_, hleaf⟩ := h.leaf
  obtain ⟨place, hresolve, hplace⟩ := h.place
  constructor
  · refine ⟨at_, resolveLeaf_of_walkLinks hleaf hlog.here ?_⟩
    intro dir names at_ e hwalk
    rw [hlog.walkLinks, hwalk]
    exact ⟨_, rfl⟩
  · have hafter : fs'.resolve true p = .ok (place.renew fs') := by
      rw [hlog.resolve, hresolve]
      rfl
    exact ⟨_, hafter, hlog.fresh h.fresh _ hafter⟩

/-- A file that was made where there was none is found by the path that led there. -/
theorem Opens.set_free (h : Opens places p fs) {at_ : Location}
    (hresolve : fs.resolve true p = .ok (.free at_)) (mode : Nat) (content : Text) :
    Opens places p (fs.set at_ (.file mode content)) := by
  obtain ⟨l, hleaf⟩ := h.leaf
  have hfewer := fewer_set (stands_of_resolve hresolve) (.file mode content)
  constructor
  · refine ⟨l, resolveLeaf_of_walkLinks hleaf rfl ?_⟩
    intro dir names found e hwalk
    have hwithin := hfewer.walkLinks true maxLinks dir (names ++ [Path.dot])
    rw [hwalk] at hwithin
    exact hwithin.of_entry
  · have hfresh : at_ ∉ places := h.fresh _ hresolve
    exact ⟨_, resolve_set_of_free hresolve mode content, hfresh⟩

theorem Opens.set_file (h : Opens places p fs) {at_ : Location} {mode : Nat} {old : Text}
    (hresolve : fs.resolve true p = .ok (.entry at_ (.file mode old))) (content : Text) :
    Opens places p (fs.set at_ (.file mode content)) := by
  obtain ⟨l, hleaf⟩ := h.leaf
  have hset := LoggedAt.set (List.mem_singleton_self at_)
    ((stands_of_resolve hresolve).get?_eq rfl) content
  constructor
  · refine ⟨l, resolveLeaf_of_walkLinks hleaf rfl ?_⟩
    intro dir names found e hwalk
    rw [hset.walkLinks, hwalk]
    exact ⟨_, rfl⟩
  · have hfresh : at_ ∉ places := h.fresh _ hresolve
    exact ⟨_, resolve_set_of_file hresolve content, hfresh⟩

end FileSystem

namespace FileAction

open FileSystem

variable {fs : FileSystem} {places : List Location} {p : Path}

theorem run_writable_of_resolve {at_ l : Location} {place : Place} {before : Option Entry}
    (hleaf : fs.resolveLeaf p = .ok (.name l false)) (hresolve : fs.resolve true p = .ok place)
    (hplace : place = .free at_ ∧ before = none ∨
      ∃ mode old, place = .entry at_ (.file mode old) ∧ before = some (.file mode old)) :
    ((writable p false).run fs).run = (.ok (at_, before), fs) := by
  unfold writable
  rw [run_ask_bind, hleaf]
  dsimp only
  rw [run_ask_bind, Bool.not_false, hresolve]
  obtain ⟨rfl, rfl⟩ | ⟨mode, old, rfl, rfl⟩ := hplace
  · rfl
  · rfl

/-- A file that can be opened is written, holds what was written, and can be opened again. -/
theorem run_write_of_opens (h : Opens places p fs) (content : Text) : ∃ at_ fs',
    ((write p content).run fs).run = (.ok at_, fs') ∧ Opens places p fs' ∧
      fs'.content? p = some content := by
  obtain ⟨l, hleaf⟩ := h.leaf
  obtain ⟨place, hresolve, hfresh⟩ := h.place
  unfold write
  cases place with
  | free at_ =>
    have hopened := run_writable_of_resolve hleaf hresolve (.inl ⟨rfl, rfl⟩)
    rw [run_bind_ok hopened]
    exact ⟨at_, _, rfl, h.set_free hresolve _ content,
      content?_of_file (resolve_set_of_free hresolve _ content)⟩
  | entry at_ e =>
    cases e with
    | directory | link => exact hfresh.elim
    | file mode old =>
      have hopened := run_writable_of_resolve hleaf hresolve (.inr ⟨mode, old, rfl, rfl⟩)
      rw [run_bind_ok hopened]
      exact ⟨at_, _, rfl, h.set_file hresolve content,
        content?_of_file (resolve_set_of_file hresolve content)⟩

end FileAction

end NativeBuild
