import NativeBuild.Files.Access
import NativeBuild.Proofs.Actions
import NativeBuild.Proofs.Files.Steps

/-!
# Files that are opened for writing

A walk that does not end at a directory ends below the root. So a file that is opened for writing
stands there when it was opened, with nothing in it or with what it held before.
-/
namespace NativeBuild

namespace FileSystem

/-- A place is found as it stands in the file system. -/
def Place.Stands (fs : FileSystem) : Place → Prop
  | .entry at_ e => (fs.get? at_).getD (.directory 0o755) = e
  | .free at_ => fs.get? at_ = none

/-- A place that is no directory lies below the root. -/
def Place.BelowRoot : Place → Prop
  | .entry at_ e => e.isDirectory = false → at_ ≠ []
  | .free at_ => at_ ≠ []

variable {fs : FileSystem} {follow : Bool} {place : Place}

theorem Place.Stands.belowRoot (h : place.Stands fs) : place.BelowRoot := by
  cases place with
  | entry at_ e =>
    rintro hfile rfl
    subst h
    cases hfile
  | free at_ =>
    rintro rfl
    cases h

/-- What stands at a place that is no directory has an entry. -/
theorem Place.Stands.get?_eq {at_ : Location} {e : Entry} (h : (Place.entry at_ e).Stands fs)
    (hfile : e.isDirectory = false) : fs.get? at_ = some e := by
  cases hget : fs.get? at_ with
  | none =>
    rw [Stands, hget] at h
    subst h
    cases hfile
  | some e' =>
    rw [Stands, hget] at h
    exact congrArg some h

/-- A walk ends where it starts, or at a name. -/
theorem stands_of_walk {dir : Location} {names : List Text}
    (h : fs.walk follow dir names = .arrived place) : place.Stands fs := by
  rw [← goes_iff] at h
  generalize hw : Walk.arrived place = w at h
  induction h with
  | done =>
    obtain rfl := Walk.arrived.inj hw
    rfl
  | free _ hget =>
    obtain rfl := Walk.arrived.inj hw
    exact hget
  | file _ hget | link _ hget =>
    obtain rfl := Walk.arrived.inj hw
    rw [Place.Stands, hget]
    rfl
  | tooLong | missing | blocked | jump => cases hw
  | stay _ ih | up _ ih | down _ _ _ ih => exact ih hw

theorem stands_of_walkLinks {budget : Nat} {dir : Location} {names : List Text}
    (h : fs.walkLinks follow budget dir names = .ok place) : place.Stands fs := by
  rw [← goesOn_iff] at h
  generalize hresult : Except.ok place = result at h
  induction h with
  | ended hwalk =>
    subst hresult
    exact stands_of_walk hwalk
  | tooMany | nowhere => cases hresult
  | behind _ _ _ ih => exact ih hresult

theorem stands_of_resolve {p : Path} (h : fs.resolve follow p = .ok place) : place.Stands fs :=
  stands_of_walkLinks (walkLinks_of_resolve h).2.2

/-- What stands at the end of a path is where the path is resolved. -/
theorem entryAt_eq_ok_iff {p : Path} {at_ : Location} {e : Entry} :
    fs.entryAt follow p = .ok (at_, e) ↔ fs.resolve follow p = .ok (.entry at_ e) := by
  unfold entryAt
  cases fs.resolve follow p with
  | error => exact ⟨nofun, nofun⟩
  | ok place =>
    cases place with
    | free => exact ⟨nofun, nofun⟩
    | entry => exact ⟨fun h => by cases h; rfl, fun h => by cases h; rfl⟩

theorem entryAt_of_free {p : Path} {at_ : Location} (h : fs.resolve follow p = .ok (.free at_)) :
    fs.entryAt follow p = .error .notFound := by
  unfold entryAt
  rw [h]
  rfl

theorem entryAt_of_error {p : Path} {e : FileError} (h : fs.resolve follow p = .error e) :
    fs.entryAt follow p = .error e := by
  unfold entryAt
  rw [h]
  rfl

theorem resolve_of_entryAt {p : Path} {at_ : Location} {e : Entry}
    (h : fs.entryAt follow p = .ok (at_, e)) : fs.resolve follow p = .ok (.entry at_ e) :=
  entryAt_eq_ok_iff.mp h

theorem resolve_of_status {p : Path} {at_ : Location} {e : Entry} (h : fs.status p = .ok (at_, e)) :
    fs.resolve true p = .ok (.entry at_ e) := resolve_of_entryAt h

theorem status_of_entry {p : Path} {at_ : Location} {e : Entry}
    (h : fs.resolve true p = .ok (.entry at_ e)) : fs.status p = .ok (at_, e) :=
  entryAt_eq_ok_iff.mpr h

theorem status_of_free {p : Path} {at_ : Location} (h : fs.resolve true p = .ok (.free at_)) :
    fs.status p = .error .notFound := entryAt_of_free h

/-- What a path leads to stands there, unless it is a directory. -/
theorem get?_of_status {p : Path} {at_ : Location} {e : Entry} (h : fs.status p = .ok (at_, e))
    (hfile : e.isDirectory = false) : fs.get? at_ = some e :=
  (stands_of_resolve (resolve_of_status h)).get?_eq hfile

theorem isDirectory_iff {p : Path} :
    fs.isDirectory p = true ↔ ∃ at_ mode, fs.status p = .ok (at_, .directory mode) := by
  unfold isDirectory
  cases fs.status p with
  | error e => exact ⟨nofun, nofun⟩
  | ok found =>
    obtain ⟨at_, entry⟩ := found
    cases entry with
    | directory mode => exact ⟨fun _ => ⟨at_, mode, rfl⟩, fun _ => rfl⟩
    | file | link => exact ⟨nofun, nofun⟩

theorem exists_status_of_isFile {p : Path} (h : fs.isFile p = true) :
    ∃ at_ mode content, fs.status p = .ok (at_, .file mode content) := by
  unfold isFile at h
  split at h
  · next at_ entry hstatus =>
    cases entry with
    | file mode content => exact ⟨at_, mode, content, hstatus⟩
    | directory | link => cases h
  · cases h

end FileSystem

namespace FileAction

open FileSystem

variable {fs fs' : FileSystem} {p : Path} {at_ : Location}

theorem run_ask {α : Type} (view : FileSystem → Except FileError α) (fs : FileSystem) :
    ((ask view).run fs).run = (view fs, fs) := by
  unfold ask
  have hget : ((get : FileAction FileSystem).run fs).run = (.ok fs, fs) := rfl
  rw [run_bind, hget]
  dsimp only
  cases view fs <;> rfl

theorem run_ask_bind {α β : Type} (view : FileSystem → Except FileError α) (k : α → FileAction β)
    (fs : FileSystem) : ((ask view >>= k).run fs).run = match view fs with
      | .ok a => ((k a).run fs).run
      | .error e => (.error e, fs) := by
  rw [run_bind, run_ask]
  cases view fs <;> rfl

theorem of_run_ask {α : Type} {view : FileSystem → Except FileError α} {x : α}
    (h : ((ask view).run fs).run = (.ok x, fs')) : view fs = .ok x ∧ fs = fs' := by
  rw [run_ask] at h
  exact Prod.mk.inj h

/-- A file can be written at the place that its path leads to, unless that is a directory. Finding
the place changes nothing. -/
theorem writable_ok {fresh : Bool} {before : Option Entry}
    (h : ((writable p fresh).run fs).run = (.ok (at_, before), fs')) : fs = fs' ∧
      (fs.resolve (!fresh) p = .ok (.free at_) ∧ before = none ∨
        ∃ e, fs.resolve (!fresh) p = .ok (.entry at_ e) ∧ e.isDirectory = false ∧
          before = some e) := by
  obtain ⟨leaf, fs₁, hleaf, h⟩ := of_run_bind h
  obtain ⟨-, rfl⟩ := of_run_ask hleaf
  split at h
  · obtain ⟨place, fs₂, hplace, h⟩ := of_run_bind h
    obtain ⟨hresolve, rfl⟩ := of_run_ask hplace
    split at h
    · obtain ⟨hok, rfl⟩ := Prod.mk.inj h
      obtain ⟨rfl, rfl⟩ := Prod.mk.inj (Except.ok.inj hok)
      exact ⟨rfl, .inl ⟨hresolve, rfl⟩⟩
    · split at h
      · cases congrArg Prod.fst h
      split at h
      · cases congrArg Prod.fst h
      · next hfile =>
        obtain ⟨hok, rfl⟩ := Prod.mk.inj h
        obtain ⟨rfl, rfl⟩ := Prod.mk.inj (Except.ok.inj hok)
        exact ⟨rfl, .inr ⟨_, hresolve, by simpa using hfile, rfl⟩⟩
  · obtain ⟨found, fs₂, hfound, h⟩ := of_run_bind h
    split at h
    · cases congrArg Prod.fst h
    · cases congrArg Prod.fst h
  · cases congrArg Prod.fst h

/-- A file can be written below the root. -/
theorem ne_nil_of_writable {fresh : Bool} {before : Option Entry}
    (h : ((writable p fresh).run fs).run = (.ok (at_, before), fs')) : at_ ≠ [] := by
  obtain ⟨-, ⟨hresolve, -⟩ | ⟨e, hresolve, hfile, -⟩⟩ := writable_ok h
  · exact (stands_of_resolve hresolve).belowRoot
  · exact (stands_of_resolve hresolve).belowRoot hfile

/-- A file that was written anew stands there with its content. -/
theorem write_ok {content : Text} (h : ((write p content).run fs).run = (.ok at_, fs')) :
    ∃ mode, fs'.get? at_ = some (.file mode content) := by
  obtain ⟨⟨place, before⟩, fs₁, hplace, h⟩ := of_run_bind h
  have hne := ne_nil_of_writable hplace
  obtain ⟨rfl, -⟩ := writable_ok hplace
  obtain ⟨hok, rfl⟩ := Prod.mk.inj h
  obtain rfl := Except.ok.inj hok
  exact ⟨_, by rw [get?_set _ _ _ _ hne, if_pos rfl]⟩

/-- A file that was appended to ends in the content. -/
theorem append_ok {content : Text} (h : ((append p content).run fs).run = (.ok at_, fs')) :
    ∃ mode old, fs'.get? at_ = some (.file mode (old ++ content)) := by
  obtain ⟨⟨place, before⟩, fs₁, hplace, h⟩ := of_run_bind h
  have hne := ne_nil_of_writable hplace
  obtain ⟨rfl, -⟩ := writable_ok hplace
  dsimp only at h
  split at h
  · next mode old =>
    obtain ⟨hok, rfl⟩ := Prod.mk.inj h
    obtain rfl := Except.ok.inj hok
    exact ⟨mode, old, by rw [get?_set _ _ _ _ hne, if_pos rfl]⟩
  · obtain ⟨hok, rfl⟩ := Prod.mk.inj h
    obtain rfl := Except.ok.inj hok
    exact ⟨_, [], by rw [get?_set _ _ _ _ hne, if_pos rfl, List.nil_append]⟩

end FileAction

end NativeBuild
