import NativeBuild.Files.Directory

/-!
# Trees laid over trees

A copy of a tree is laid over what is at its target. Directories that are there stay, and what is
missing is made; a file takes the place of a file. A file does not take the place of a directory:
it goes into that directory, under its own name. So a copy fits as long as no directory meets a
file, no file that goes into a directory meets another one there, and no path is too long. A copy
that fits loses no directory, and to lay it over once more changes nothing.
-/
namespace NativeBuild.FileSystem

/-- What stands at the locations of a tree, seen from its root. -/
abbrev View := Location → Option Entry

/-- The tree at a location. -/
def view (fs : FileSystem) (at_ : Location) : View := fun rel => fs.get? (at_ ++ rel)

namespace View

/-- The tree at a name in the root. -/
def under (v : View) (name : Text) : View := fun rel => v (name :: rel)

def directoryAt (v : View) (rel : Location) : Bool := (v rel).any Entry.isDirectory

def fileAt (v : View) (rel : Location) : Bool := (v rel).any Entry.isFile

/-- Whatever is in a tree is in a directory of the tree. -/
def Closed (v : View) : Prop :=
  ∀ rel name, v (rel ++ [name]) ≠ none → v.directoryAt rel = true

/-- A tree laid over another one. If it is a single file, the file has a name of its own. -/
def overlay (name : Text) (new old : View) : View
  | [] => match new [] with
    | none => old []
    | some (.directory mode) => some ((old []).getD (.directory (FileAction.maskedMode mode)))
    | some entry => if old.directoryAt [] then old [] else some entry
  | next :: rest => match new [] with
    | none => old (next :: rest)
    | some (.directory _) => overlay next (new.under next) (old.under next) rest
    | some entry =>
      if old.directoryAt [] ∧ next = name ∧ rest = [] then some entry else old (next :: rest)

/-- What a tree at `source` asks of what is at `target`. -/
def FitsAt (source target : Path) (name : Text) (new old : View) : Location → Prop
  | [] => new [] ≠ none → source.length < maxPath ∧ target.length < maxPath ∧
      (new.directoryAt [] = true → old.fileAt [] = false) ∧
      (new.directoryAt [] = false → old.directoryAt [] = true →
        (Path.join target name).length < maxPath ∧ old.directoryAt [name] = false)
  | next :: rest => new.directoryAt [] = true →
      FitsAt (Path.join source next) (Path.join target next) next (new.under next) (old.under next)
        rest

/-- A tree at `source` fits to what is at `target`. -/
def Fits (source target : Path) (name : Text) (new old : View) : Prop :=
  ∀ rel, FitsAt source target name new old rel

section

variable {source target : Path} {name : Text} {new old : View} {rel : Location}

theorem directoryAt_iff {v : View} : v.directoryAt rel = true ↔ ∃ mode, v rel = some (.directory mode) := by
  unfold directoryAt
  cases h : v rel with
  | none => simp
  | some e => cases e <;> simp [Entry.isDirectory]

/-- A tree is empty, or a directory with what is below, or a single file. -/
theorem root_cases (v : View) : v [] = none ∨ v.directoryAt [] = true ∨
    ∃ entry, v [] = some entry ∧ entry.isDirectory = false := by
  unfold directoryAt
  cases v [] with
  | none => exact .inl rfl
  | some entry =>
    cases hkind : entry.isDirectory with
    | true => exact .inr (.inl hkind)
    | false => exact .inr (.inr ⟨entry, rfl, hkind⟩)

theorem overlay_of_none (h : new [] = none) : overlay name new old = old := by
  funext rel
  cases rel <;> rw [overlay, h]

/-- Directories are laid over directories name by name. -/
theorem overlay_of_directory (h : new.directoryAt [] = true) (name : Text) (old : View) :
    (∃ mode, overlay name new old [] = some ((old []).getD (.directory mode))) ∧
      ∀ next, (overlay name new old).under next = overlay next (new.under next) (old.under next) := by
  obtain ⟨mode, hnew⟩ := directoryAt_iff.mp h
  refine ⟨⟨_, by rw [overlay, hnew]⟩, fun next => ?_⟩
  funext rest
  rw [under, overlay, hnew]

/-- Where a single file goes. -/
def landing (name : Text) (old : View) : Location := if old.directoryAt [] then [name] else []

theorem overlay_of_file {entry : Entry} (h : new [] = some entry) (hfile : entry.isDirectory = false)
    (rel : Location) : overlay name new old rel =
      if rel = landing name old then some entry else old rel := by
  unfold landing
  cases entry with
  | directory => cases hfile
  | file =>
    cases rel <;> rw [overlay, h] <;> cases old.directoryAt [] <;> simp
  | link =>
    cases rel <;> rw [overlay, h] <;> cases old.directoryAt [] <;> simp

/-- A file that goes into a directory leaves it there. -/
theorem landing_overlay {entry : Entry} (h : new [] = some entry) (hfile : entry.isDirectory = false) :
    landing name (overlay name new old) = landing name old := by
  have hroot : (overlay name new old).directoryAt [] = old.directoryAt [] := by
    unfold directoryAt
    rw [overlay_of_file h hfile]
    unfold landing
    cases hold : old.directoryAt [] with
    | true => rw [if_neg (by simp)]
    | false =>
      rw [if_pos (by simp), Option.any_some, hfile]
      exact hold.symm
  unfold landing
  rw [hroot]

theorem fits_iff : Fits source target name new old ↔ FitsAt source target name new old [] ∧
    (new.directoryAt [] = true → ∀ next, Fits (Path.join source next) (Path.join target next) next
      (new.under next) (old.under next)) := by
  refine ⟨fun h => ⟨h [], fun hnew next rest => h (next :: rest) hnew⟩, fun ⟨h, hrest⟩ rel => ?_⟩
  cases rel with
  | nil => exact h
  | cons next rest => exact fun hnew => hrest hnew next rest

/-- What a single file asks of what is there. -/
theorem fits_of_file {entry : Entry} (h : new [] = some entry) (hfile : entry.isDirectory = false) :
    Fits source target name new old ↔ source.length < maxPath ∧ target.length < maxPath ∧
      (old.directoryAt [] = true →
        (Path.join target name).length < maxPath ∧ old.directoryAt [name] = false) := by
  have hnot : new.directoryAt [] = false := by rw [directoryAt, h]; exact hfile
  rw [fits_iff]
  unfold FitsAt
  simp [h, hnot]

/-- What a directory asks of what is there. -/
theorem fits_of_directory (h : new.directoryAt [] = true) :
    Fits source target name new old ↔ source.length < maxPath ∧ target.length < maxPath ∧
      old.fileAt [] = false ∧ ∀ next, Fits (Path.join source next) (Path.join target next) next
        (new.under next) (old.under next) := by
  obtain ⟨mode, hnew⟩ := directoryAt_iff.mp h
  rw [fits_iff]
  unfold FitsAt
  simp [h, hnew, and_assoc]

theorem fits_of_none (h : new [] = none) : Fits source target name new old := by
  refine fits_iff.mpr ⟨fun hne => absurd h hne, fun hnew => ?_⟩
  unfold directoryAt at hnew
  rw [h] at hnew
  cases hnew

/-- No directory is lost. -/
theorem Fits.keeps (h : Fits source target name new old) (hold : old.directoryAt rel = true) :
    overlay name new old rel = old rel := by
  induction rel generalizing source target name new old with
  | nil =>
    obtain hnone | hnew | ⟨entry, hnew, hfile⟩ := new.root_cases
    · rw [overlay_of_none hnone]
    · obtain ⟨mode, hroot⟩ := (overlay_of_directory hnew name old).1
      obtain ⟨mode, hget⟩ := directoryAt_iff.mp hold
      rw [hroot, hget, Option.getD_some]
    · rw [overlay_of_file hnew hfile, landing, if_pos hold, if_neg (by simp)]
  | cons next rest ih =>
    obtain ⟨hroot, hrest⟩ := fits_iff.mp h
    obtain hnone | hnew | ⟨entry, hnew, hfile⟩ := new.root_cases
    · rw [overlay_of_none hnone]
    · have hunder := congrFun ((overlay_of_directory hnew name old).2 next) rest
      exact hunder.trans (ih (hrest hnew next) hold)
    · rw [overlay_of_file hnew hfile, if_neg]
      unfold landing
      split
      · next hdirectory =>
        rintro ⟨rfl, rfl⟩
        have hnot : new.directoryAt [] = false := by rw [directoryAt, hnew]; exact hfile
        have hfree := ((hroot (by simp [hnew])).2.2.2 hnot hdirectory).2
        rw [hold] at hfree
        cases hfree
      · simp

/-- What has been laid over another tree can be laid over it again, and changes nothing. -/
theorem overlay_overlay (name : Text) (new old : View) :
    overlay name new (overlay name new old) = overlay name new old := by
  funext rel
  induction rel generalizing name new old with
  | nil =>
    obtain hnone | hnew | ⟨entry, hnew, hfile⟩ := new.root_cases
    · rw [overlay_of_none hnone]
    · obtain ⟨mode, hroot⟩ := (overlay_of_directory hnew name old).1
      obtain ⟨mode', hroot'⟩ := (overlay_of_directory hnew name (overlay name new old)).1
      rw [hroot', hroot, Option.getD_some]
    · rw [overlay_of_file hnew hfile, landing_overlay hnew hfile]
      split
      · next hrel => rw [overlay_of_file hnew hfile, if_pos hrel]
      · rfl
  | cons next rest ih =>
    obtain hnone | hnew | ⟨entry, hnew, hfile⟩ := new.root_cases
    · rw [overlay_of_none hnone]
    · have hunder := (overlay_of_directory hnew name old).2 next
      have hunder' := (overlay_of_directory hnew name (overlay name new old)).2 next
      refine (congrFun hunder' rest).trans ?_
      rw [hunder]
      exact (ih next (new.under next) (old.under next)).trans (congrFun hunder rest).symm
    · rw [overlay_of_file hnew hfile, landing_overlay hnew hfile]
      split
      · next hrel => rw [overlay_of_file hnew hfile, if_pos hrel]
      · rfl

/-- What fits once fits again. -/
theorem Fits.overlay (h : Fits source target name new old) :
    Fits source target name new (View.overlay name new old) := by
  intro rel
  induction rel generalizing source target name new old with
  | nil =>
    obtain ⟨hroot, -⟩ := fits_iff.mp h
    intro hne
    obtain ⟨hsource, htarget, hdirectory, hinto⟩ := hroot hne
    refine ⟨hsource, htarget, fun hnew => ?_, fun hnot hlaid => ?_⟩
    · obtain ⟨mode, hlaid⟩ := (overlay_of_directory hnew name old).1
      have hfile := hdirectory hnew
      unfold fileAt at hfile ⊢
      rw [hlaid]
      cases hget : old [] with
      | none => rfl
      | some entry => rwa [hget] at hfile
    · obtain hnone | hnew | ⟨entry, hnew, hfile⟩ := new.root_cases
      · exact absurd hnone hne
      · rw [hnew] at hnot
        cases hnot
      · have hold : old.directoryAt [] = true := by
          unfold directoryAt at hlaid ⊢
          rw [overlay_of_file hnew hfile] at hlaid
          split at hlaid
          · rw [Option.any_some, hfile] at hlaid
            cases hlaid
          · exact hlaid
        refine ⟨(hinto hnot hold).1, ?_⟩
        unfold directoryAt
        rw [overlay_of_file hnew hfile, landing, if_pos hold, if_pos rfl]
        exact hfile
  | cons next rest ih =>
    intro hnew
    rw [(overlay_of_directory hnew name old).2 next]
    exact ih ((fits_iff.mp h).2 hnew next)

end

end View

end NativeBuild.FileSystem
