import NativeBuild.Proofs.Files.Landing
import NativeBuild.Proofs.Files.Links
import NativeBuild.Proofs.Files.Operations

/-!
# File systems without loose ends

In a file system that has come about by operations every entry is in a directory, and the current
directory is there. A walk goes through directories only then, whatever links it follows: what it
arrives at stands there, and what it finds free is in a directory. So what is made is in a
directory again.
-/
namespace NativeBuild

namespace FileSystem

section Closed

variable {fs : FileSystem} {l l' : Location}

/-- The trees of a file system are closed. -/
theorem closed_view (h : (fs.view []).Closed) (at_ : Location) : (fs.view at_).Closed := by
  intro rel name hne
  refine h (at_ ++ rel) name ?_
  rw [List.append_assoc]
  exact hne

theorem closed_of_entries (h : ∀ e ∈ fs.entries, fs.directoryAt e.1.dropLast = true) :
    (fs.view []).Closed := by
  intro rel name hne
  obtain ⟨entry, hget⟩ := Option.ne_none_iff_exists'.mp hne
  have hdirectory := h _ (mem_of_get? (by simp) hget)
  rw [List.nil_append, List.dropLast_concat] at hdirectory
  exact hdirectory

/-- What is there is in directories. -/
theorem directoryAt_of_closed (h : (fs.view []).Closed) (hl : l' <+: l) (hne : l' ≠ l)
    (hthere : fs.get? l ≠ none) : fs.directoryAt l' = true := by
  obtain ⟨more, rfl⟩ := hl
  exact h.directoryAt (fun hnil => hne (by rw [hnil, List.append_nil])) hthere

theorem directoryAt_way (h : (fs.view []).Closed) (hl : l' <+: l) (hdirectory : fs.directoryAt l = true) :
    fs.directoryAt l' = true := by
  by_cases hne : l' = l
  · exact hne ▸ hdirectory
  · obtain ⟨mode, hget⟩ := directoryAt_iff.mp hdirectory
    exact directoryAt_of_closed h hl hne (by rw [hget]; simp)

end Closed

/-- Directories are added where nothing was. -/
structure Adds (fs fs' : FileSystem) : Prop where
  here : fs'.here = fs.here
  get?_eq_or : ∀ l, fs'.get? l = fs.get? l ∨
    fs.get? l = none ∧ fs'.get? l = some (.directory (FileAction.maskedMode 0o777))

theorem Adds.refl (fs : FileSystem) : Adds fs fs := ⟨rfl, fun _ => .inl rfl⟩

theorem Adds.fewer {fs fs' : FileSystem} (h : Adds fs fs') : Fewer fs fs' :=
  ⟨h.here.symm, fun l _ => (h.get?_eq_or l).elim (fun hsame => .inr hsame.symm) fun hmade => .inl hmade.1⟩

/-- Every entry is in a directory, and the current directory is there. -/
structure Rooted (fs : FileSystem) : Prop where
  closed : (fs.view []).Closed
  here : fs.directoryAt fs.here = true

/-- Every entry is in a directory, and a path starts from one. -/
structure RootedFor (fs : FileSystem) (p : Path) : Prop where
  closed : (fs.view []).Closed
  start : fs.directoryAt (Path.start fs.here p) = true

theorem RootedFor.of_isAbsolute {fs : FileSystem} {p : Path} (hclosed : (fs.view []).Closed)
    (hp : Path.isAbsolute p = true) : fs.RootedFor p :=
  ⟨hclosed, by rw [Path.start, if_pos hp]; rfl⟩

theorem RootedFor.congr {fs : FileSystem} {p q : Path} (h : fs.RootedFor p)
    (habsolute : Path.isAbsolute q = Path.isAbsolute p) : fs.RootedFor q :=
  ⟨h.closed, by unfold Path.start; rw [habsolute]; exact h.start⟩

theorem Rooted.rootedFor {fs : FileSystem} (h : fs.Rooted) (p : Path) : fs.RootedFor p := by
  refine ⟨h.closed, ?_⟩
  unfold Path.start
  split
  · rfl
  · exact h.here

/-- What a walk arrives at is there, and what it finds free is in a directory. -/
def Place.Found (fs : FileSystem) : Place → Prop
  | .entry at_ e => fs.get? at_ = some e
  | .free at_ => fs.get? at_ = none ∧ fs.directoryAt at_.dropLast = true

variable {fs : FileSystem} {follow : Bool} {dir at_ l : Location} {names : List Text}
  {place : Place} {p : Path}

section Closed

variable (h : (fs.view []).Closed)
include h

/-- A directory that is left lies in a directory. -/
theorem directoryAt_dropLast (hdir : fs.directoryAt dir = true) :
    fs.directoryAt dir.dropLast = true := directoryAt_way h (List.dropLast_prefix _) hdir

theorem found_of_walk (hdir : fs.directoryAt dir = true)
    (hwalk : fs.walk follow dir names = .arrived place) : place.Found fs := by
  rw [← goes_iff] at hwalk
  generalize hw : Walk.arrived place = w at hwalk
  induction hwalk with
  | done =>
    obtain ⟨mode, hget⟩ := directoryAt_iff.mp hdir
    rw [hget] at hw
    obtain rfl := Walk.arrived.inj hw
    exact hget
  | stay _ ih => exact ih hdir hw
  | up _ ih => exact ih (directoryAt_dropLast h hdir) hw
  | down _ hget _ ih => exact ih (directoryAt_iff.mpr ⟨_, hget⟩) hw
  | free _ hget =>
    obtain rfl := Walk.arrived.inj hw
    exact ⟨hget, by rwa [List.dropLast_concat]⟩
  | file _ hget | link _ hget =>
    obtain rfl := Walk.arrived.inj hw
    exact hget
  | tooLong | missing | blocked | jump => cases hw

/-- A link is followed from the directory that it is in. -/
theorem directoryAt_of_jump (hdir : fs.directoryAt dir = true) {target : Text}
    {rest : List Text} (hwalk : fs.walk follow dir names = .jump at_ target rest) :
    fs.directoryAt at_ = true := by
  rw [← goes_iff] at hwalk
  generalize hw : Walk.jump at_ target rest = w at hwalk
  induction hwalk with
  | stay _ ih => exact ih hdir hw
  | up _ ih => exact ih (directoryAt_dropLast h hdir) hw
  | down _ hget _ ih => exact ih (directoryAt_iff.mpr ⟨_, hget⟩) hw
  | jump =>
    cases hw
    exact hdir
  | done | tooLong | free | missing | file | blocked | link => cases hw

/-- The names behind a link are walked from a directory. -/
theorem directoryAt_behind (hdir : fs.directoryAt dir = true) {target : Text} {rest : List Text}
    (hwalk : fs.walk follow dir names = .jump at_ target rest) :
    fs.directoryAt (if Path.isAbsolute target then [] else at_) = true := by
  split
  · rfl
  · exact directoryAt_of_jump h hdir hwalk

theorem found_of_walkLinks {budget : Nat} (hdir : fs.directoryAt dir = true)
    (hwalk : fs.walkLinks follow budget dir names = .ok place) : place.Found fs := by
  rw [← goesOn_iff] at hwalk
  generalize hresult : Except.ok place = result at hwalk
  induction hwalk with
  | ended harrived =>
    subst hresult
    exact found_of_walk h hdir harrived
  | behind hjump _ _ ih => exact ih (directoryAt_behind h hdir hjump) hresult
  | tooMany | nowhere => cases hresult

/-- What is entered is a directory. -/
theorem directoryAt_of_enters_walk (hdir : fs.directoryAt dir = true)
    (hwalk : fs.walk follow dir (names ++ [Path.dot]) = .arrived place) :
    fs.directoryAt place.location = true := by
  induction dir, names using Path.goTo_induction with
  | here =>
    obtain rfl := Walk.arrived.inj hwalk
    exact hdir
  | stay dir rest ih =>
    rw [List.cons_append, walk_dot] at hwalk
    exact ih hdir hwalk
  | up dir rest ih =>
    rw [List.cons_append, walk_dotDot] at hwalk
    exact ih (directoryAt_dropLast h hdir) hwalk
  | down dir name rest hdot hdotDot ih =>
    obtain ⟨-, mode, hget, hrest⟩ := exists_walk_of_walk_cons hdot hdotDot (by simp) hwalk
    exact ih (directoryAt_iff.mpr ⟨mode, hget⟩) hrest

theorem directoryAt_of_enters {budget : Nat} (hdir : fs.directoryAt dir = true)
    (hwalk : fs.walkLinks true budget dir (names ++ [Path.dot]) = .ok place) :
    fs.directoryAt place.location = true := by
  induction budget generalizing dir names with
  | zero =>
    rw [walkLinks] at hwalk
    split at hwalk
    · next harrived =>
      obtain rfl := Except.ok.inj hwalk
      exact directoryAt_of_enters_walk h hdir harrived
    · cases hwalk
    · cases hwalk
  | succ budget ih =>
    have henters := fs.enters_walk true dir names
    rw [walkLinks] at hwalk
    generalize hw : fs.walk true dir (names ++ [Path.dot]) = w at henters hwalk
    cases henters with
    | arrived =>
      obtain rfl := Except.ok.inj hwalk
      exact directoryAt_of_enters_walk h hdir hw
    | refused => cases hwalk
    | jump at_ target rest =>
      dsimp only at hwalk
      split at hwalk
      · cases hwalk
      · rw [← List.append_assoc] at hwalk
        exact ih (directoryAt_behind h hdir hw) hwalk

end Closed

namespace RootedFor

variable (h : fs.RootedFor p)
include h

/-- What a path leads to is there. -/
theorem found_of_resolve (hresolve : fs.resolve follow p = .ok place) :
    place.Found fs :=
  found_of_walkLinks h.closed (h.congr (isAbsolute_visible p)).start
    (walkLinks_of_resolve hresolve).2.2

/-- What a path leads to is found there however much is added. -/
theorem status_mono {fs' : FileSystem} (hfewer : Fewer fs fs') {e : Entry}
    (hstatus : fs.status p = .ok (at_, e)) : fs'.status p = .ok (at_, e) := by
  have hresolve := resolve_of_status hstatus
  have hthere : fs.get? at_ = some e := h.found_of_resolve hresolve
  have hsame : fs'.get? at_ = some e := by
    by_cases hroot : at_ = []
    · subst hroot
      exact hthere
    · obtain hnone | hsame := hfewer.get?_eq_or at_ hroot
      · cases hnone.symm.trans hthere
      · exact hsame.symm.trans hthere
  have hwithin := hfewer.resolve true p
  rw [hresolve] at hwithin
  obtain ⟨e', hresolve'⟩ := hwithin.of_entry
  have hstands : (fs'.get? at_).getD (.directory 0o755) = e' := stands_of_resolve hresolve'
  rw [hsame, Option.getD_some] at hstands
  exact status_of_entry (hstands ▸ hresolve')

/-- The last component of a path is looked up in a directory. -/
theorem directoryAt_of_resolveLeaf {slashed : Bool}
    (hleaf : fs.resolveLeaf p = .ok (.name l slashed)) : fs.directoryAt l.dropLast = true := by
  obtain ⟨-, -, last, before, dir, e, -, hwalk, -, -, -, rfl, -⟩ := exists_enters_of_resolveLeaf hleaf
  rw [List.dropLast_concat]
  exact directoryAt_of_enters h.closed (h.congr (isAbsolute_visible p)).start hwalk

/-- What is made in a directory is in one. -/
theorem set (hin : fs.directoryAt l.dropLast = true) {entry : Entry}
    (hkeep : fs.directoryAt l = true → entry.isDirectory = true) : (fs.set l entry).RootedFor p := by
  have hstays : ∀ l', fs.directoryAt l' = true → (fs.set l entry).directoryAt l' = true := by
    intro l' hl'
    unfold directoryAt
    obtain hsame | ⟨rfl, hset⟩ := get?_set_eq_or fs l l' entry
    · rw [hsame]
      exact hl'
    · rw [hset]
      exact hkeep hl'
  refine ⟨fun rel name hne => hstays _ ?_, hstays _ h.start⟩
  obtain hsame | ⟨hl, -⟩ := get?_set_eq_or fs l ([] ++ (rel ++ [name])) entry
  · exact h.closed rel name fun hnone => hne (hsame.trans hnone)
  · rw [← hl, List.nil_append, List.dropLast_concat] at hin
    exact hin

end RootedFor

theorem Rooted.set (h : fs.Rooted) (hin : fs.directoryAt l.dropLast = true) {entry : Entry}
    (hkeep : fs.directoryAt l = true → entry.isDirectory = true) : (fs.set l entry).Rooted :=
  have hset := (h.rootedFor []).set hin hkeep
  ⟨hset.closed, hset.start⟩

end FileSystem

namespace FileAction

open FileSystem

variable {p q : Path}

/-- Making directories adds directories where nothing was, and changes nothing else. -/
theorem preserves_makeDirectories_of_adds (start : FileSystem) (p : Path) :
    Preserves (Adds start) (makeDirectories p) := by
  refine preserves_makeDirectories_of fun _ _ => preserves_ensureOne_of
    (preserves_makeDirectory_of fun fs at_ _ h _ hfree => ⟨h.here, fun l => ?_⟩)
  obtain hsame | ⟨rfl, hmade⟩ := get?_set_eq_or fs at_ l (.directory (maskedMode 0o777))
  · rw [hsame]
    exact h.get?_eq_or l
  · obtain hbefore | ⟨-, hafter⟩ := h.get?_eq_or l
    · exact .inr ⟨hbefore.symm.trans hfree, hmade⟩
    · cases hfree.symm.trans hafter

/-- Making directories leaves no loose ends. -/
theorem preserves_makeDirectories_of_rooted (p : Path) : Preserves Rooted (makeDirectories p) :=
  preserves_makeDirectories_of fun q _ => preserves_ensureOne_of
    (preserves_makeDirectory_of fun _ _ _ h hleaf _ =>
      h.set ((h.rootedFor q).directoryAt_of_resolveLeaf hleaf) fun _ => rfl)

theorem preserves_ensureOne_of_rootedFor (habsolute : Path.isAbsolute q = Path.isAbsolute p) :
    Preserves (RootedFor · p) (ensureOne q) :=
  preserves_ensureOne_of (preserves_makeDirectory_of fun _ _ _ h hleaf _ =>
    h.set ((h.congr habsolute).directoryAt_of_resolveLeaf hleaf) fun _ => rfl)

theorem preserves_makeDirectories_of_rootedFor (p : Path) :
    Preserves (RootedFor · p) (makeDirectories p) :=
  preserves_makeDirectories_of fun _ hq => preserves_ensureOne_of_rootedFor hq.absolute

end FileAction

end NativeBuild
