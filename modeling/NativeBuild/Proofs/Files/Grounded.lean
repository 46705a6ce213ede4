import NativeBuild.Proofs.Files.Rooted

/-!
# Entries that are in directories

Where every entry is in a directory, a path that leads to a file ends in the name of the file, and
what is made is made in a directory again.
-/
namespace NativeBuild

open FileSystem
open NativeBuild.Path (IsName goTo)

namespace FileSystem

variable {fs fs' : FileSystem} {l l' : Location}

/-- There are no links, every entry is in a directory, and the current directory is there. -/
structure Grounded (fs : FileSystem) : Prop where
  plain : fs.Plain
  closed : (fs.view []).Closed
  here : fs.directoryAt fs.here = true

namespace Grounded

variable {p : Path} {names more : List Text}

theorem rooted (h : fs.Grounded) : fs.Rooted := ⟨h.closed, h.here⟩

/-- Directories and free places stay what they are when only files change. -/
theorem of_alike (h : fs.Grounded) (hplain : fs'.Plain) (hhere : fs'.here = fs.here)
    (hdirectory : ∀ l, fs'.directoryAt l = fs.directoryAt l)
    (hthere : ∀ l, (fs'.get? l).isSome = (fs.get? l).isSome) : fs'.Grounded where
  plain := hplain
  closed rel name hne := by
    have hsome : (fs.get? ([] ++ (rel ++ [name]))).isSome = true := by
      rw [← hthere]
      exact Option.isSome_iff_ne_none.mpr hne
    have hclosed : fs.directoryAt ([] ++ rel) = true :=
      h.closed rel name (Option.isSome_iff_ne_none.mp hsome)
    rw [← hdirectory] at hclosed
    exact hclosed
  here := by rw [hhere, hdirectory, h.here]

/-- Names that are gone through from the start of a path lead to a directory. -/
theorem directoryAt_goTo (h : fs.Grounded) (hthrough : fs.Through (Path.start fs.here p) names) :
    fs.directoryAt (goTo (Path.start fs.here p) names) = true := by
  obtain hstart | hdirectory := hthrough.directoryAt List.prefix_rfl
  · exact directoryAt_way h.closed hstart (h.rooted.rootedFor p).start
  · exact hdirectory

theorem directoryAt_of_walk (h : fs.Grounded) (hmore : more ≠ []) {place : Place}
    (hwalk : fs.walkLinks true maxLinks (Path.start fs.here p) (names ++ more) = .ok place) :
    fs.directoryAt (goTo (Path.start fs.here p) names) = true :=
  h.directoryAt_goTo
    (through_of_walk hmore ((walkLinks_eq_ok_iff h.plain.links).mp hwalk))

/-- What a path leads to is a directory if its components but for some more lead there. -/
theorem directoryAt_of_status (h : fs.Grounded) (hzero : 0 ∉ p) (hsteps : steps p = names ++ more)
    (hmore : more ≠ []) {found : Location × Entry} (hstatus : fs.status p = .ok found) :
    fs.directoryAt (goTo (Path.start fs.here p) names) = true := by
  obtain ⟨-, -, hwalk⟩ := of_resolve_eq_ok hzero (resolve_of_status hstatus)
  rw [hsteps] at hwalk
  exact h.directoryAt_of_walk hmore hwalk

/-- A step from a directory to something else is a step to a name in it. -/
theorem goTo_concat (h : fs.Grounded) {dir : Location} {name : Text}
    (hdir : fs.directoryAt (goTo dir names) = true)
    (hnot : ¬ fs.directoryAt (goTo dir (names ++ [name])) = true) :
    goTo dir (names ++ [name]) = goTo dir names ++ [name] := by
  rw [Path.goTo_append] at hnot ⊢
  by_cases hdot : name = Path.dot
  · subst hdot
    rw [Path.goTo_dot] at hnot
    exact absurd hdir hnot
  · by_cases hdotDot : name = Path.dotDot
    · subst hdotDot
      rw [Path.goTo_dotDot] at hnot
      exact absurd (directoryAt_way h.closed (List.dropLast_prefix _) hdir) hnot
    · rw [Path.goTo_down hdot hdotDot]
      rfl

/-- A path that leads to a file ends in the name of the file. -/
theorem isName_fileName (h : fs.Grounded) (hzero : 0 ∉ p) {mode : Nat} {content : Text}
    (hstatus : fs.status p = .ok (l, .file mode content)) :
    IsName (Path.fileName p) ∧ ∃ dir, l = dir ++ [Path.fileName p] := by
  obtain ⟨rfl, hentry, hnames⟩ := h.plain.of_status hzero hstatus
  have hfile : ¬ fs.directoryAt (Path.location fs.here p) = true := by
    intro hdirectory
    obtain ⟨mode, hget⟩ := directoryAt_iff.mp hdirectory
    rw [hget] at hentry
    cases hentry
  have hne : Path.components p ≠ [] := by
    intro hnil
    refine hfile ?_
    unfold Path.location
    rw [hnil]
    exact h.directoryAt_goTo trivial
  have hparent := Path.components_eq_parent_append (Path.not_slashes_of_components hne)
  by_cases hnone : Path.fileName p = []
  · -- A path with a slash at its end leads to a directory.
    have hslashed : p.getLast? = some Path.slash := by
      refine Path.getLast?_of_fileName_eq_nil hnone ?_
      rintro rfl
      exact hne rfl
    have hdotted : steps p = Path.components p ++ [Path.dot] := by
      unfold steps
      simp [hne, hslashed]
    exact absurd (h.directoryAt_of_status hzero hdotted (by simp) hstatus) hfile
  · rw [if_neg hnone] at hparent
    obtain ⟨more, hsteps, -⟩ := exists_steps_eq p
    rw [hparent, List.append_assoc] at hsteps
    have hdirectory := h.directoryAt_of_status hzero hsteps (by simp) hstatus
    unfold Path.location at hfile hnames ⊢
    rw [hparent] at hfile hnames ⊢
    rw [h.goTo_concat hdirectory hfile] at hnames ⊢
    exact ⟨hnames _ (by simp), _, rfl⟩

/-- A directory that is made in another one has a place. -/
theorem set (h : fs.Grounded) {dir : Location} {name : Text}
    (hnames : ∀ other ∈ dir ++ [name], IsName other) (hdir : fs.directoryAt dir = true) (mode : Nat) :
    (fs.set (dir ++ [name]) (.directory mode)).Grounded := by
  have hputs := h.plain.puts hnames (show ∀ target, Entry.directory mode ≠ .link target by simp)
  have hrooted : (fs.set (dir ++ [name]) (.directory mode)).Rooted :=
    h.rooted.set (by rwa [List.dropLast_concat]) fun _ => rfl
  exact ⟨hputs.plain, hrooted.closed, hrooted.here⟩

end Grounded

end FileSystem

namespace FileAction

variable {p : Path}

theorem grounded_makeDirectory (hzero : 0 ∉ p) (mode : Nat) :
    Preserves Grounded (makeDirectory p mode) := by
  refine preserves_makeDirectory_of fun fs at_ slashed h hleaf hfree => ?_
  obtain ⟨-, hnames⟩ := h.plain.of_resolveLeaf hzero hleaf
  have hin := (h.rooted.rootedFor p).directoryAt_of_resolveLeaf hleaf
  obtain rfl | ⟨dir, name, rfl⟩ := List.eq_nil_or_concat' at_
  · cases hfree
  · rw [List.dropLast_concat] at hin
    exact h.set hnames hin _

/-- What is made on the way to a directory is made in a directory. -/
theorem grounded_makeDirectories (hzero : 0 ∉ p) : Preserves Grounded (makeDirectories p) :=
  preserves_makeDirectories_of fun _ hway => preserves_ensureOne_of
    (grounded_makeDirectory (fun hmem => hzero (hway.bytes 0 hmem)) 0o777)

end FileAction

end NativeBuild
