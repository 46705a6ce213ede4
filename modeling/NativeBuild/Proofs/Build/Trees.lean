import NativeBuild.Proofs.Build.Stage
import NativeBuild.Proofs.Files.Copies

/-!
# The trees that are published

Staging publishes four trees: the generated sources of the temporary directory, and the native
libraries and the two kinds of data files in the staging area. Nothing else that a build does
reaches them, as long as its three directories lie apart and its processes keep to the cache and
to the files directly in the managed directory.
-/
namespace NativeBuild

open FileSystem

namespace FileSystem

/-- The content of a file, if the entry is one. -/
def contentOf : Option Entry → Option Text
  | some (.file _ content) => some content
  | _ => none

/-- The content of the file at a location, if one is there. -/
def contentAt (fs : FileSystem) (l : Location) : Option Text := contentOf (fs.get? l)

end FileSystem

namespace BuildPaths

/-- The names of the directories for data files. -/
def IsData (name : Text) : Prop := name = utf8 "Metadata" ∨ name = utf8 "Resources"

variable (paths : BuildPaths) (here : Location)

/-- The roots of the trees that staging publishes. -/
inductive Root : Location → Prop
  | generated : Root (generatedIn (paths.tempAt here))
  | native : Root (nativeIn (paths.stagingAt here))
  | data {name : Text} (hname : IsData name) : Root (paths.managedAt here ++ [name])

/-- A location in one of the published trees. -/
def Published (l : Location) : Prop := ∃ root, paths.Root here root ∧ root <+: l

/-- The three directories lie apart. -/
structure Disjoint : Prop where
  tempCache : Apart (paths.tempAt here) (paths.cacheAt here)
  tempStaging : Apart (paths.tempAt here) (paths.stagingAt here)
  cacheStaging : Apart (paths.cacheAt here) (paths.stagingAt here)

variable {paths here} {l root : Location}

/-- Each root is directly in the temporary directory, or in the staging area. -/
theorem Root.inside (h : paths.Root here root) :
    paths.tempAt here <+: root ∨ paths.stagingAt here <+: root := by
  cases h with
  | generated => exact .inl (List.prefix_append _ _)
  | native => exact .inr (List.prefix_append _ _)
  | data => exact .inr ((List.prefix_append _ _).trans (List.prefix_append _ _))

theorem Published.inside (h : paths.Published here l) :
    paths.tempAt here <+: l ∨ paths.stagingAt here <+: l := by
  obtain ⟨root, hroot, hl⟩ := h
  exact hroot.inside.imp (·.trans hl) (·.trans hl)

/-- The cache is not published. -/
theorem Disjoint.not_published_of_cache (h : paths.Disjoint here) (hl : paths.cacheAt here <+: l) :
    ¬ paths.Published here l := fun hpublished =>
  hpublished.inside.elim (fun htemp => h.tempCache.not_both htemp hl)
    (fun hstaging => h.cacheStaging.not_both hl hstaging)

/-- Nor is what is on the way to it. -/
theorem Disjoint.not_published_above_cache (h : paths.Disjoint here)
    (hl : l <+: paths.cacheAt here) : ¬ paths.Published here l := fun hpublished =>
  hpublished.inside.elim (fun htemp => h.tempCache.1 (htemp.trans hl))
    (fun hstaging => h.cacheStaging.2 (hstaging.trans hl))

/-- What is on the way to a location in the temporary directory is not published, if the way does
not lead into the generated sources. -/
theorem Disjoint.not_published_of_temp (h : paths.Disjoint here) {name : Text}
    (hname : name ≠ utf8 "il2cppOutput") (hl : l <+: paths.tempAt here ++ [name]) :
    ¬ paths.Published here l := by
  rintro ⟨root, hroot, hpublished⟩
  have htemp := List.prefix_append (paths.tempAt here) [name]
  cases hroot with
  | generated => exact (apart_names (paths.tempAt here) hname.symm).1 (hpublished.trans hl)
  | native =>
    exact h.tempStaging.not_both htemp ((List.prefix_append _ _).trans (hpublished.trans hl))
  | data hname =>
    exact h.tempStaging.not_both htemp
      (((List.prefix_append _ _).trans (List.prefix_append _ _)).trans (hpublished.trans hl))

/-- So is what is on the way to a location in the staging area, if it does not lead into a published
tree there. -/
theorem Disjoint.not_published_of_staging (h : paths.Disjoint here) {name : Text}
    (hname : name ≠ utf8 "Native") (hmanaged : name ≠ utf8 "Managed")
    (hl : l <+: paths.stagingAt here ++ [name]) : ¬ paths.Published here l := by
  rintro ⟨root, hroot, hpublished⟩
  have hstaging := List.prefix_append (paths.stagingAt here) [name]
  cases hroot with
  | generated =>
    exact h.tempStaging.symm.not_both hstaging ((List.prefix_append _ _).trans (hpublished.trans hl))
  | native => exact (apart_names (paths.stagingAt here) hname.symm).1 (hpublished.trans hl)
  | data hname =>
    exact (apart_names (paths.stagingAt here) hmanaged.symm).1
      ((List.prefix_append _ _).trans (hpublished.trans hl))

/-- A location directly in the managed directory is published only as a root. -/
theorem Disjoint.root_of_managed (h : paths.Disjoint here) {name : Text}
    (hpublished : paths.Published here (paths.managedAt here ++ [name])) : IsData name := by
  obtain ⟨root, hroot, hpublished⟩ := hpublished
  have hstaging : paths.stagingAt here <+: paths.managedAt here ++ [name] :=
    (List.prefix_append _ _).trans (List.prefix_append _ _)
  cases hroot with
  | generated =>
    exact absurd ((List.prefix_append _ _).trans hpublished)
      (h.tempStaging.symm.not_both hstaging)
  | native =>
    have hmanaged := List.prefix_append (paths.managedAt here) [name]
    exact absurd hpublished
      ((apart_names (paths.stagingAt here) (by decide +kernel)).not_both hmanaged)
  | data hname =>
    have heq := hpublished.eq_of_length (by simp)
    exact List.singleton_inj.mp (List.append_cancel_left heq) ▸ hname

/-- The published trees lie apart from the cache. -/
theorem Disjoint.apart_cache (h : paths.Disjoint here) (hroot : paths.Root here root)
    (hl : paths.cacheAt here <+: l) : Apart root l :=
  hroot.inside.elim (fun htemp => h.tempCache.mono htemp hl)
    fun hstaging => h.cacheStaging.symm.mono hstaging hl

theorem Disjoint.apart_generated (h : paths.Disjoint here) (hl : paths.stagingAt here <+: l) :
    Apart (generatedIn (paths.tempAt here)) l :=
  h.tempStaging.mono (List.prefix_append _ _) hl

theorem managed_inside (name : Text) : paths.stagingAt here <+: paths.managedAt here ++ [name] :=
  (List.prefix_append _ _).trans (List.prefix_append _ _)

theorem apart_native (name : Text) :
    Apart (nativeIn (paths.stagingAt here)) (paths.managedAt here ++ [name]) :=
  (apart_names (paths.stagingAt here) (by decide +kernel)).mono List.prefix_rfl (List.prefix_append _ _)

/-- Two published trees lie apart. -/
theorem Disjoint.apart_roots (h : paths.Disjoint here) {root' : Location} (hroot : paths.Root here root)
    (hroot' : paths.Root here root') : root = root' ∨ Apart root root' := by
  cases hroot with
  | generated =>
    cases hroot' with
    | generated => exact .inl rfl
    | native => exact .inr (h.apart_generated (List.prefix_append _ _))
    | data => exact .inr (h.apart_generated (managed_inside _))
  | native =>
    cases hroot' with
    | generated => exact .inr (h.apart_generated (List.prefix_append _ _)).symm
    | native => exact .inl rfl
    | data => exact .inr (apart_native _)
  | @data name hname =>
    cases hroot' with
    | generated => exact .inr (h.apart_generated (managed_inside _)).symm
    | native => exact .inr (apart_native _).symm
    | @data name' hname' =>
      by_cases heq : name = name'
      · exact .inl (heq ▸ rfl)
      · exact .inr (apart_names _ heq)

end BuildPaths

end NativeBuild
