import Mathlib.Data.List.Perm.Subperm
import NativeBuild.Proofs.Dictionary
import NativeBuild.Proofs.Files.Operations

/-!
# Files that are collected in a directory

Files are copied one after the other into an empty directory, each under its own name. Of the files
with one name the last one is left, so as many are left as there are names.
-/
namespace NativeBuild

open FileSystem
open NativeBuild.Path (IsName)

namespace Dictionary

/-- Nothing is lost when texts are sorted exactly if no text stands there twice. -/
theorem length_sorted_eq_iff {texts : List Text} :
    (sorted texts).length = texts.length ↔ texts.Nodup := by
  constructor
  · intro hlength
    have hsubperm := List.subperm_of_subset (nodup_sorted texts) fun _ => mem_sorted.mp
    exact (hsubperm.perm_of_length_le hlength.ge).nodup_iff.mp (nodup_sorted texts)
  · intro hnodup
    have hperm := (List.perm_ext_iff_of_nodup (nodup_sorted texts) hnodup).mpr fun _ => mem_sorted
    exact hperm.length_eq

end Dictionary

namespace Path

/-- Paths by their file names. Of the paths with one name the last one counts. -/
def byFileName (paths : List Path) : Dictionary Path :=
  Dictionary.ofList (paths.map fun p => (fileName p, p))

variable {paths : List Path} {p : Path} {name : Text}

theorem isSorted_byFileName (paths : List Path) : (byFileName paths).IsSorted :=
  Dictionary.isSorted_ofList _

theorem get?_byFileName (paths : List Path) (name : Text) :
    Dictionary.get? name (byFileName paths) = paths.reverse.find? (fileName · = name) := by
  unfold byFileName
  rw [Dictionary.get?_ofList, ← List.map_reverse, Dictionary.get?_map,
    Option.map_id_fun', id]

theorem get?_byFileName_concat (paths : List Path) (p : Path) (name : Text) :
    Dictionary.get? name (byFileName (paths ++ [p])) =
      if name = fileName p then some p else Dictionary.get? name (byFileName paths) := by
  rw [get?_byFileName, get?_byFileName, List.reverse_append, List.reverse_singleton,
    List.singleton_append, List.find?_cons]
  by_cases h : fileName p = name
  · simp [h]
  · simp [h, Ne.symm h]

/-- What is found for a name is one of the paths, and has the name. -/
theorem of_get?_byFileName (h : Dictionary.get? name (byFileName paths) = some p) :
    p ∈ paths ∧ fileName p = name := by
  rw [get?_byFileName] at h
  exact ⟨List.mem_reverse.mp (List.mem_of_find?_eq_some h), by simpa using List.find?_some h⟩

theorem isSome_get?_byFileName_iff :
    (Dictionary.get? name (byFileName paths)).isSome = true ↔ name ∈ paths.map fileName := by
  rw [get?_byFileName, List.find?_isSome]
  simp

/-- The names are those of the paths, each of them once. -/
theorem keys_byFileName (paths : List Path) :
    (byFileName paths).map (·.1) = Dictionary.sorted (paths.map fileName) :=
  (Dictionary.sorted_eq_keys (isSorted_byFileName paths) fun _ =>
    isSome_get?_byFileName_iff.symm).symm

/-- No path is lost exactly if no two of them have one name. -/
theorem length_byFileName_eq_iff :
    (byFileName paths).length = paths.length ↔ (paths.map fileName).Nodup := by
  rw [← Dictionary.length_sorted_eq_iff, ← keys_byFileName, List.length_map, List.length_map]

theorem mem_byFileName_of_nodup (h : (paths.map fileName).Nodup) (hp : p ∈ paths) :
    (fileName p, p) ∈ byFileName paths := by
  obtain ⟨q, hget⟩ := Option.isSome_iff_exists.mp
    (isSome_get?_byFileName_iff.mpr (List.mem_map_of_mem hp))
  obtain ⟨hq, hname⟩ := of_get?_byFileName hget
  obtain rfl := List.inj_on_of_nodup_map h hq hp hname
  exact Dictionary.mem_of_get? hget

end Path

namespace FileSystem

/-- Files at some paths have been copied into an empty directory, each under its own name. -/
structure Collects (fs fs' : FileSystem) (dir : Path) (paths : List Path) : Prop where
  plain : fs'.Plain
  here : fs'.here = fs.here
  found : ∀ p ∈ paths, (Path.join dir (Path.fileName p)).length < maxPath ∧
    ∃ mode content, fs.get? (Path.location fs.here p) = some (.file mode content)
  inside : ∀ name, fs'.get? (Path.location fs.here dir ++ [name]) =
    (Dictionary.get? name (Path.byFileName paths)).bind fun p => fs.get? (Path.location fs.here p)
  outside : ∀ l, (∀ name, l ≠ Path.location fs.here dir ++ [name]) → fs'.get? l = fs.get? l

variable {fs fs' fs'' : FileSystem} {dir p : Path} {paths : List Path}
  (hempty : ∀ name, fs.get? (Path.location fs.here dir ++ [name]) = none)
include hempty

theorem collects_nil (h : fs.Plain) : Collects fs fs dir [] where
  plain := h
  here := rfl
  found := by simp
  inside := hempty
  outside _ _ := rfl

/-- No directory is lost. -/
theorem Collects.directoryAt (h : Collects fs fs' dir paths) {l : Location}
    (hl : fs.directoryAt l = true) : fs'.directoryAt l = true := by
  unfold FileSystem.directoryAt at hl ⊢
  rw [h.outside l, hl]
  rintro name rfl
  rw [hempty] at hl
  cases hl

/-- One file more is copied. -/
theorem Collects.concat (h : Collects fs fs' dir paths) (hdir : fs.Reaches dir) (hzero : 0 ∉ p)
    (hname : IsName (Path.fileName p))
    (hends : ∃ folder, Path.location fs.here p = folder ++ [Path.fileName p])
    (hrun : ((FileAction.copyFile p (Path.join dir (Path.fileName p)) true).run fs').run =
      (.ok (), fs'')) : Collects fs fs'' dir (paths ++ [p]) := by
  have hreaches : fs'.Reaches dir := hdir.mono h.here fun l _ hl => h.directoryAt hempty hl
  obtain ⟨origin, mode, content, hstatus, hapart, hshort, hputs⟩ :=
    FileAction.of_run_copyFile_join h.plain hreaches hname hrun
  obtain ⟨rfl, -⟩ := h.plain.of_status hzero hstatus
  have hget := get?_of_status hstatus rfl
  rw [h.here] at hget hapart hputs
  -- The file has its own name, so it is not in the directory: there it would be its own target.
  have hstays : fs'.get? (Path.location fs.here p) = fs.get? (Path.location fs.here p) := by
    refine h.outside _ fun name hinside => ?_
    obtain ⟨folder, hfolder⟩ := hends
    obtain ⟨rfl, hsame⟩ := List.append_inj' (hfolder.symm.trans hinside) rfl
    exact hapart (hfolder.symm ▸ rfl)
  rw [hstays] at hget
  refine ⟨hputs.plain, hputs.here.trans h.here, ?_, ?_, ?_⟩
  · intro q hq
    obtain hq | hq := List.mem_append.mp hq
    · exact h.found q hq
    · obtain rfl := List.mem_singleton.mp hq
      exact ⟨hshort, mode, content, hget⟩
  · intro name
    rw [Path.get?_byFileName_concat]
    by_cases hsame : name = Path.fileName p
    · rw [if_pos hsame, hsame, hputs.inside, Option.bind_some, hget]
    · rw [if_neg hsame, hputs.outside _ fun heq => hsame (by simpa using heq), h.inside]
  · intro l hl
    rw [hputs.outside l (hl _), h.outside l hl]

end FileSystem

end NativeBuild
