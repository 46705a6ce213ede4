import NativeBuild.Proofs.Files.Overlay

/-!
# Where the files of a tree go

A file of a tree that is laid over another one goes to its own place, or into the directory that
stands there. No other file changes. A tree laid over nothing is copied as it is, but for the
permission bits of its directories.
-/
namespace NativeBuild

/-- What is made of an entry that is copied: a directory gets the permission bits that the mask
leaves. -/
def Entry.copied : Entry → Entry
  | .directory mode => .directory (FileAction.maskedMode mode)
  | entry => entry

namespace FileSystem

/-- The permission bits and the content of a file, if the entry is one. -/
def fileOf : Option Entry → Option (Nat × Text)
  | some (.file mode content) => some (mode, content)
  | _ => none

/-- The permission bits and the content of the file at a location, if one is there. -/
def file? (fs : FileSystem) (l : Location) : Option (Nat × Text) := fileOf (fs.get? l)

theorem fileOf_eq_some {e : Option Entry} {mode : Nat} {content : Text} :
    fileOf e = some (mode, content) ↔ e = some (.file mode content) := by
  obtain _ | _ | _ | _ := e <;> simp [fileOf]

namespace View

/-- Where the file at a place in a tree goes. -/
def landingAt (name : Text) (old : View) : Location → Location
  | [] => landing name old
  | next :: rest => next :: landingAt next (old.under next) rest

theorem landingAt_eq (name : Text) (old : View) (rel : Location) : landingAt name old rel =
    if old.directoryAt rel then rel ++ [rel.getLastD name] else rel := by
  induction rel generalizing name old with
  | nil => rfl
  | cons next rest ih =>
    have hunder : (old.under next).directoryAt rest = old.directoryAt (next :: rest) := rfl
    rw [landingAt, ih, hunder, List.getLastD_cons, apply_ite (next :: ·)]
    rfl

variable {source target : Path} {name : Text} {new old : View} {rel : Location} {entry : Entry}

theorem Closed.under (h : new.Closed) (next : Text) : (new.under next).Closed :=
  fun rel name hne => h (next :: rel) name hne

/-- What is below a place is in a directory there. -/
theorem Closed.directoryAt (h : new.Closed) {more : Location} (hmore : more ≠ [])
    (hne : new (rel ++ more) ≠ none) : new.directoryAt rel = true := by
  induction more generalizing rel with
  | nil => exact absurd rfl hmore
  | cons next rest ih =>
    by_cases hrest : rest = []
    · subst hrest
      exact h rel next hne
    · have hnext : new.directoryAt (rel ++ [next]) = true := ih hrest (by simpa using hne)
      refine h rel next fun hnone => ?_
      unfold View.directoryAt at hnext
      rw [hnone] at hnext
      cases hnext

theorem overlay_landingAt (hclosed : new.Closed) (hnew : new rel = some entry)
    (hfile : entry.isDirectory = false) :
    overlay name new old (landingAt name old rel) = some entry := by
  induction rel generalizing name new old with
  | nil => rw [landingAt, overlay_of_file hnew hfile, if_pos rfl]
  | cons next rest ih =>
    have hroot : new.directoryAt [] = true :=
      hclosed.directoryAt (List.cons_ne_nil next rest) (by rw [List.nil_append, hnew]; simp)
    refine (congrFun ((overlay_of_directory hroot name old).2 next) _).trans ?_
    exact ih (hclosed.under next) hnew

/-- Where no file goes, there is no other file than before. -/
theorem fileOf_overlay (h : ∀ place entry, new place = some entry → entry.isDirectory = false →
    landingAt name old place ≠ rel) : fileOf (overlay name new old rel) = fileOf (old rel) := by
  induction rel generalizing name new old with
  | nil =>
    obtain hnone | hnew | ⟨entry, hnew, hfile⟩ := new.root_cases
    · rw [overlay_of_none hnone]
    · obtain ⟨mode, hroot⟩ := (overlay_of_directory hnew name old).1
      rw [hroot]
      cases old [] <;> rfl
    · have hnot : landing name old ≠ _ := h [] entry hnew hfile
      rw [overlay_of_file hnew hfile, if_neg hnot.symm]
  | cons next rest ih =>
    obtain hnone | hnew | ⟨entry, hnew, hfile⟩ := new.root_cases
    · rw [overlay_of_none hnone]
    · refine (congrArg fileOf (congrFun ((overlay_of_directory hnew name old).2 next) rest)).trans ?_
      refine ih fun place entry hplace hfile heq => h (next :: place) entry hplace hfile ?_
      rw [landingAt, heq]
    · have hnot : landing name old ≠ _ := h [] entry hnew hfile
      rw [overlay_of_file hnew hfile, if_neg hnot.symm]

/-- A tree that is laid over nothing. -/
theorem overlay_empty (hclosed : new.Closed) (name : Text) (rel : Location) :
    overlay name new (fun _ => none) rel = (new rel).map Entry.copied := by
  induction rel generalizing name new with
  | nil =>
    rw [overlay]
    cases hnew : new [] with
    | none => rfl
    | some entry => cases entry <;> rfl
  | cons next rest ih =>
    have hbelow : new.directoryAt [] = false → new (next :: rest) = none := fun hroot =>
      Classical.byContradiction fun hne => by
        have hdirectory : new.directoryAt [] = true :=
          hclosed.directoryAt (List.cons_ne_nil next rest) hne
        rw [hdirectory] at hroot
        cases hroot
    obtain hnone | hnew | ⟨entry, hnew, hfile⟩ := new.root_cases
    · rw [overlay_of_none hnone, hbelow (by rw [View.directoryAt, hnone]; rfl)]
      rfl
    · exact (congrFun ((overlay_of_directory hnew name _).2 next) rest).trans
        (ih (hclosed.under next) next)
    · rw [overlay_of_file hnew hfile, hbelow (by rw [View.directoryAt, hnew]; exact hfile)]
      exact if_neg (List.cons_ne_nil next rest)

/-- No path in a tree that fits is too long. -/
theorem Fits.length_lt (h : Fits source target name new old) (hclosed : new.Closed)
    (hne : new rel ≠ none) : (rel.foldl Path.join target).length < maxPath := by
  induction rel generalizing source target name new old with
  | nil => exact ((fits_iff.mp h).1 hne).2.1
  | cons next rest ih =>
    have hroot : new.directoryAt [] = true :=
      hclosed.directoryAt (List.cons_ne_nil next rest) hne
    exact ih ((fits_iff.mp h).2 hroot next) (hclosed.under next) hne

end View

end FileSystem

end NativeBuild
