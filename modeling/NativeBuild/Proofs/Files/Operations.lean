import NativeBuild.Proofs.Files.Policy
import NativeBuild.Proofs.Files.Reach

/-!
# Operations at a name

In a path that can be entered a name stands for its location. So what an operation does at the name
depends on the length of the path and on what is at the location, and it changes nothing else.
-/
namespace NativeBuild

open FileSystem
open NativeBuild.Path (IsName)

namespace FileSystem

/-- An entry is put at a location, and nothing else changes. -/
structure Puts (fs fs' : FileSystem) (at_ : Location) (entry : Entry) : Prop where
  plain : fs'.Plain
  here : fs'.here = fs.here
  inside : fs'.get? at_ = some entry
  outside : ∀ l, l ≠ at_ → fs'.get? l = fs.get? l

variable {fs fs' fs'' : FileSystem} {dir : Location} {name : Text} {entry entry' : Entry}

theorem Plain.puts (h : fs.Plain) (hnames : ∀ other ∈ dir ++ [name], IsName other)
    (hentry : ∀ target, entry ≠ .link target) :
    Puts fs (fs.set (dir ++ [name]) entry) (dir ++ [name]) entry where
  plain := h.set hnames hentry
  here := rfl
  inside := by rw [get?_set _ _ _ _ (by simp), if_pos rfl]
  outside l hl := (get?_set_eq_or fs _ l entry).resolve_right fun hset => hl hset.1

theorem Puts.trans (h : Puts fs fs' dir entry) (h' : Puts fs' fs'' dir entry') :
    Puts fs fs'' dir entry' where
  plain := h'.plain
  here := h'.here.trans h.here
  inside := h'.inside
  outside l hl := (h'.outside l hl).trans (h.outside l hl)

/-- A path can still be entered when a name in it gets an entry: no directory is lost. -/
theorem Puts.directoryAt (h : Puts fs fs' dir entry) (hkeep : fs.directoryAt dir = false) {l : Location}
    (hl : fs.directoryAt l = true) : fs'.directoryAt l = true := by
  have hne : l ≠ dir := by
    rintro rfl
    rw [hl] at hkeep
    cases hkeep
  unfold FileSystem.directoryAt
  rw [h.outside l hne]
  exact hl

end FileSystem

namespace FileAction

variable {fs : FileSystem} {q : Path} {name : Text}
  (h : fs.Plain) (hq : fs.Reaches q) (hname : IsName name)
include h hq hname

theorem isName_of_short (hshort : (Path.join q name).length < maxPath) :
    ∀ other ∈ Path.location fs.here q ++ [name], IsName other := by
  have hleaf := h.resolveLeaf_join hq hname
  rw [if_neg (Nat.not_le.mpr hshort)] at hleaf
  exact (h.of_resolveLeaf (Path.zero_not_mem_join hq.zero hname.zero) hleaf).2

/-- A directory is made where nothing is. -/
theorem run_makeDirectory (mode : Nat) : ((makeDirectory (Path.join q name) mode).run fs).run =
    if maxPath ≤ (Path.join q name).length then (.error .nameTooLong, fs)
    else if (fs.get? (Path.location fs.here q ++ [name])).isSome then (.error .alreadyExists, fs)
    else (.ok (), fs.set (Path.location fs.here q ++ [name]) (.directory (maskedMode mode))) := by
  unfold makeDirectory
  rw [run_get_bind, run_ask_bind, h.resolveLeaf_join hq hname]
  by_cases hlong : maxPath ≤ (Path.join q name).length
  · rw [if_pos hlong, if_pos hlong]
  · rw [if_neg hlong, if_neg hlong]
    dsimp only
    split <;> rfl

/-- A file may be written where no directory is. -/
theorem run_writable : ((writable (Path.join q name) false).run fs).run =
    if maxPath ≤ (Path.join q name).length then (.error .nameTooLong, fs)
    else match fs.get? (Path.location fs.here q ++ [name]) with
      | some (.directory _) => (.error .isDirectory, fs)
      | before => (.ok (Path.location fs.here q ++ [name], before), fs) := by
  unfold writable
  rw [run_ask_bind, h.resolveLeaf_join hq hname]
  by_cases hlong : maxPath ≤ (Path.join q name).length
  · rw [if_pos hlong, if_pos hlong]
  · rw [if_neg hlong, if_neg hlong]
    dsimp only
    rw [run_ask_bind, h.resolve_join hq hname, if_neg hlong]
    cases hget : fs.get? (Path.location fs.here q ++ [name]) with
    | none => rfl
    | some entry => cases entry <;> rfl

/-- A file is written where no directory is. -/
theorem run_write (content : Text) : ((write (Path.join q name) content).run fs).run =
    if maxPath ≤ (Path.join q name).length then (.error .nameTooLong, fs)
    else match fs.get? (Path.location fs.here q ++ [name]) with
      | some (.directory _) => (.error .isDirectory, fs)
      | some entry => (.ok (Path.location fs.here q ++ [name]),
          fs.set (Path.location fs.here q ++ [name]) (.file entry.mode content))
      | none => (.ok (Path.location fs.here q ++ [name]),
          fs.set (Path.location fs.here q ++ [name]) (.file (maskedMode 0o666) content)) := by
  unfold write
  rw [run_bind, run_writable h hq hname]
  by_cases hlong : maxPath ≤ (Path.join q name).length
  · rw [if_pos hlong, if_pos hlong]
  · rw [if_neg hlong, if_neg hlong]
    cases fs.get? (Path.location fs.here q ++ [name]) with
    | none => rfl
    | some entry => cases entry <;> rfl

/-- What is at the name, if anything is. -/
theorem lookUp_join : lookUp fs (Path.join q name) =
    if maxPath ≤ (Path.join q name).length then .error .nameTooLong
    else .ok ((fs.get? (Path.location fs.here q ++ [name])).map
      (Path.location fs.here q ++ [name], ·)) := by
  unfold lookUp
  rw [h.status_join hq hname]
  by_cases hlong : maxPath ≤ (Path.join q name).length
  · rw [if_pos hlong, if_pos hlong]
    rfl
  · rw [if_neg hlong, if_neg hlong]
    cases fs.get? (Path.location fs.here q ++ [name]) <;> rfl

section Short

variable (hshort : (Path.join q name).length < maxPath)
include hshort

/-- A file is made, and gets its permission bits. -/
theorem run_makeFile (mode : Nat) (content : Text)
    (hget : fs.get? (Path.location fs.here q ++ [name]) = none) :
    ∃ fs', ((makeFile (Path.join q name) mode content).run fs).run = (.ok (), fs') ∧
      Puts fs fs' (Path.location fs.here q ++ [name]) (.file mode content) := by
  have hnames := isName_of_short h hq hname hshort
  have hmade := h.puts hnames
    (show ∀ target, Entry.file (maskedMode 0o666) content ≠ .link target by simp)
  refine ⟨_, ?_, hmade.trans (hmade.plain.puts hnames (by simp))⟩
  unfold makeFile
  rw [run_bind, run_write h hq hname, if_neg (Nat.not_le.mpr hshort), hget]
  rfl

/-- A file is rewritten, and gets other permission bits. -/
theorem run_replaceFile {mode' : Nat} {old : Text} (mode : Nat) (content : Text)
    (hget : fs.get? (Path.location fs.here q ++ [name]) = some (.file mode' old)) :
    ∃ fs', ((replaceFile (Path.join q name) mode content).run fs).run = (.ok (), fs') ∧
      Puts fs fs' (Path.location fs.here q ++ [name]) (.file mode content) := by
  have hnames := isName_of_short h hq hname hshort
  have hwritten := h.puts hnames (show ∀ target, Entry.file mode' content ≠ .link target by simp)
  have hreaches := hq.mono hwritten.here fun l _ =>
    hwritten.directoryAt (by unfold directoryAt; rw [hget]; rfl)
  have hstatus := hwritten.plain.status_join hreaches hname
  rw [if_neg (Nat.not_le.mpr hshort), hwritten.here, hwritten.inside] at hstatus
  refine ⟨_, ?_, hwritten.trans (hwritten.plain.puts hnames (by simp))⟩
  unfold replaceFile
  rw [run_bind, run_write h hq hname, if_neg (Nat.not_le.mpr hshort), hget]
  dsimp only [Entry.mode]
  unfold setMode
  rw [run_ask_bind, hstatus]
  rfl

end Short

/-- A file is copied to a name where no directory is, whatever its content. -/
theorem run_copyFile_join {source : Path} {origin : Location} {mode : Nat} {content : Text}
    (hsource : fs.status source = .ok (origin, .file mode content))
    (hapart : Path.location fs.here q ++ [name] ≠ origin) :
    ∃ result fs', ((copyFile source (Path.join q name) true).run fs).run = (result, fs') ∧
      (result = .ok () ↔ (Path.join q name).length < maxPath ∧
        fs.directoryAt (Path.location fs.here q ++ [name]) = false) ∧
      (result = .ok () → Puts fs fs' (Path.location fs.here q ++ [name]) (.file mode content)) := by
  rw [run_copyFile, lookUp_join h hq hname, hsource]
  by_cases hlong : maxPath ≤ (Path.join q name).length
  · rw [if_pos hlong]
    exact ⟨_, _, rfl, by simp [Nat.not_lt.mpr hlong], by simp⟩
  rw [if_neg hlong]
  have hshort := Nat.lt_of_not_le hlong
  unfold directoryAt
  cases hget : fs.get? (Path.location fs.here q ++ [name]) with
  | none =>
    obtain ⟨fs', hrun, hputs⟩ := run_makeFile h hq hname hshort mode content hget
    exact ⟨_, fs', hrun, by simp [hshort], fun _ => hputs⟩
  | some entry =>
    cases entry with
    | link target => exact absurd hget (h.links _ target)
    | directory => exact ⟨_, _, rfl, by simp [Entry.isDirectory], by simp⟩
    | file mode' old =>
      obtain ⟨fs', hrun, hputs⟩ := run_replaceFile h hq hname hshort mode content hget
      refine ⟨.ok (), fs', ?_, by simp [hshort, Entry.isDirectory], fun _ => hputs⟩
      dsimp only [Option.map]
      rw [if_neg hapart]
      exact hrun

omit h hq hname in
/-- What is copied is a file, and it is not what stands at the target. -/
theorem of_run_copyFile {fs' : FileSystem} {source target : Path}
    (hrun : ((copyFile source target true).run fs).run = (.ok (), fs')) :
    ∃ origin mode content there, fs.status source = .ok (origin, .file mode content) ∧
      lookUp fs target = .ok there ∧ ∀ found ∈ there, found.1 ≠ origin := by
  rw [run_copyFile] at hrun
  cases hlook : lookUp fs target with
  | error e =>
    rw [hlook] at hrun
    cases congrArg Prod.fst hrun
  | ok there =>
    rw [hlook] at hrun
    cases hsource : fs.status source with
    | error e =>
      rw [hsource] at hrun
      cases congrArg Prod.fst hrun
    | ok found =>
      obtain ⟨origin, entry⟩ := found
      rw [hsource] at hrun
      cases there with
      | none =>
        cases entry with
        | directory | link => cases congrArg Prod.fst hrun
        | file mode content => exact ⟨origin, mode, content, none, rfl, rfl, by simp⟩
      | some there =>
        obtain ⟨at_, met⟩ := there
        cases entry with
        | directory | link => cases met <;> cases congrArg Prod.fst hrun
        | file mode content =>
          cases met with
          | directory | link => cases congrArg Prod.fst hrun
          | file =>
            refine ⟨origin, mode, content, _, rfl, rfl, fun found hfound hsame => ?_⟩
            cases hfound
            dsimp only at hrun
            rw [if_pos hsame] at hrun
            cases congrArg Prod.fst hrun

/-- A file that has been copied to a name stands there, and stood elsewhere before. -/
theorem of_run_copyFile_join {fs' : FileSystem} {source : Path}
    (hrun : ((copyFile source (Path.join q name) true).run fs).run = (.ok (), fs')) :
    ∃ origin mode content, fs.status source = .ok (origin, .file mode content) ∧
      Path.location fs.here q ++ [name] ≠ origin ∧ (Path.join q name).length < maxPath ∧
      Puts fs fs' (Path.location fs.here q ++ [name]) (.file mode content) := by
  obtain ⟨origin, mode, content, there, hsource, hlook, hother⟩ := of_run_copyFile hrun
  have hapart : Path.location fs.here q ++ [name] ≠ origin := by
    rw [lookUp_join h hq hname] at hlook
    split at hlook
    · cases hlook
    · rintro rfl
      obtain rfl := Except.ok.inj hlook
      rw [get?_of_status hsource rfl] at hother
      exact hother _ rfl rfl
  obtain ⟨result, after, hrun', hok, hputs⟩ := run_copyFile_join h hq hname hsource hapart
  obtain ⟨rfl, rfl⟩ := Prod.mk.inj (hrun.symm.trans hrun')
  exact ⟨origin, mode, content, hsource, hapart, (hok.mp rfl).1, hputs rfl⟩

end FileAction

end NativeBuild
