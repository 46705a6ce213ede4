import NativeBuild.Proofs.Files.Copies

/-!
# Directories made and removed

A directory that has been made is found at its path. If only the directory itself is missing,
nothing else is made. A tree that is removed is gone with all that is below it, and nothing else
is.
-/
namespace NativeBuild.FileAction

open FileSystem
open NativeBuild.Path (IsName)

variable {fs fs' : FileSystem} {q : Path} {name : Text}

/-- The last one of some actions in a row starts where the others have led. -/
theorem of_run_forM_concat {I : FileSystem → Prop} {f : Path → FileAction Unit} {all : List Path}
    {p : Path} (hfs : I fs) (hf : ∀ above ∈ all, Preserves I (f above))
    (h : (((all ++ [p]).forM f).run fs).run = (.ok (), fs')) :
    ∃ between, I between ∧ ((f p).run between).run = (.ok (), fs') := by
  induction all generalizing fs with
  | nil =>
    obtain ⟨⟨⟩, between, hlast, hend⟩ := of_run_bind h
    obtain rfl : between = fs' := congrArg Prod.snd hend
    exact ⟨fs, hfs, hlast⟩
  | cons first rest ih =>
    obtain ⟨hfirst, hrest⟩ := List.forall_mem_cons.mp hf
    obtain ⟨⟨⟩, between, hrun, hlater⟩ := of_run_bind h
    exact ih ((hfirst fs hfs).of_run hrun) hrest hlater

/-- A directory that one step has made, or has found. -/
theorem of_ensureOne (h : fs.Plain) (hzero : 0 ∉ q) (hname : IsName name)
    (hrun : ((ensureOne (Path.join q name)).run fs).run = (.ok (), fs')) :
    fs'.isDirectory (Path.join q name) = true := by
  unfold ensureOne at hrun
  rw [run_get_bind] at hrun
  split at hrun
  · next after hmade =>
    obtain rfl : after = fs' := congrArg Prod.snd hrun
    have hq : fs.Reaches q := by
      unfold makeDirectory at hmade
      rw [run_get_bind] at hmade
      obtain ⟨leaf, between, hask, hmade⟩ := of_run_bind hmade
      obtain ⟨hleaf, rfl⟩ := of_run_ask hask
      split at hmade
      · exact h.reaches_of_resolveLeaf hzero hname hleaf
      · cases congrArg Prod.fst hmade
    rw [run_makeDirectory h hq hname] at hmade
    by_cases hlong : maxPath ≤ (Path.join q name).length
    · rw [if_pos hlong] at hmade
      cases congrArg Prod.fst hmade
    rw [if_neg hlong] at hmade
    have hshort := Nat.lt_of_not_le hlong
    split at hmade
    · cases congrArg Prod.fst hmade
    next hfree =>
    obtain rfl := congrArg Prod.snd hmade
    have hputs := h.puts (isName_of_short h hq hname hshort)
      (show ∀ target, Entry.directory (maskedMode 0o777) ≠ .link target by simp)
    have hkeep : ∀ l, fs.directoryAt l = true → _ := fun l => hputs.directoryAt (by
      unfold directoryAt
      rw [Option.not_isSome_iff_eq_none.mp hfree]
      rfl)
    refine (hputs.plain.isDirectory_join_iff hzero hname).mpr
      ⟨hq.mono hputs.here fun l _ => hkeep l, hshort, ?_⟩
    rw [hputs.here]
    exact directoryAt_iff.mpr ⟨_, hputs.inside⟩
  · split at hrun
    · next hthere =>
      obtain rfl : fs = fs' := congrArg Prod.snd hrun
      exact hthere.2
    · cases congrArg Prod.fst hrun

/-- A path that ends in a name is made itself, behind what is missing on the way. -/
theorem of_makeDirectories {I : FileSystem → Prop} (hfs : I fs) (hname : IsName name)
    (hI : ∀ above, Path.Above above (Path.join q name) → Preserves I (ensureOne above))
    (hrun : ((makeDirectories (Path.join q name)).run fs).run = (.ok (), fs')) :
    fs.isDirectory (Path.join q name) = true ∧ fs' = fs ∨
      ∃ between, I between ∧ ((ensureOne (Path.join q name)).run between).run = (.ok (), fs') := by
  have hfile : Path.hasFileName (Path.join q name) = true := by
    simp [Path.hasFileName, Path.join_ne_nil hname, Path.getLast?_join hname]
  unfold makeDirectories at hrun
  dsimp only at hrun
  rw [if_neg (Path.join_ne_nil hname q), run_get_bind] at hrun
  split at hrun
  · next l mode hstatus =>
    refine .inl ⟨?_, (congrArg Prod.snd hrun).symm⟩
    unfold isDirectory
    rw [hstatus]
    rfl
  · cases congrArg Prod.fst hrun
  next e hstatus =>
  by_cases habsence : (!e.isAbsence) = true
  · rw [if_pos habsence] at hrun
    cases congrArg Prod.fst hrun
  rw [if_neg habsence, hfile, Bool.true_or, if_pos rfl] at hrun
  obtain ⟨result, hfind, hall⟩ :=
    run_missingAncestors ((Path.join q name).length + 1) (Path.join q name) [] fs
  obtain ⟨all, between, hfound, hmake⟩ := of_run_bind hrun
  obtain ⟨rfl, rfl⟩ := Prod.mk.inj (hfind.symm.trans hfound)
  obtain ⟨above, habove, rfl⟩ := hall all rfl
  rw [Path.fileName_join hname.slash, if_neg (not_or.mpr ⟨hname.ne_dot, hname.ne_dotDot⟩)] at hmake
  exact .inr (of_run_forM_concat hfs (fun p hp => hI p (habove p hp)) hmake)

end NativeBuild.FileAction

namespace NativeBuild

open FileSystem
open NativeBuild.Path (IsName)

/-- Nothing may change but that directories are made on the way to a location. -/
def Policy.making (start : FileSystem) (at_ : Location) : Policy where
  start
  places := []
  may l e e' := e' = e ∨
    l <+: at_ ∧ e = none ∧ e' = some (.directory (FileAction.maskedMode 0o777))
  refl _ _ := .inl rfl
  trans l e e' e'' h h' := by
    obtain rfl | ⟨hl, rfl, rfl⟩ := h
    · exact h'
    · obtain rfl | ⟨-, hnone, -⟩ := h'
      · exact .inr ⟨hl, rfl, rfl⟩
      · cases hnone
  logs := by simp

namespace FileSystem

/-- A directory has been made at a path, with all on the way that was missing. -/
structure Makes (fs fs' : FileSystem) (p : Path) : Prop where
  plain : fs'.Plain
  here : fs'.here = fs.here
  directory : fs'.isDirectory p = true
  outside : ∀ l, fs'.get? l = fs.get? l ∨ l <+: Path.location fs.here p ∧ fs.get? l = none ∧
    fs'.get? l = some (.directory (FileAction.maskedMode 0o777))

theorem Makes.directoryAt {fs fs' : FileSystem} {p : Path} {l : Location} (h : Makes fs fs' p)
    (hl : fs.directoryAt l = true) : fs'.directoryAt l = true := by
  obtain ⟨mode, hget⟩ := directoryAt_iff.mp hl
  obtain hsame | ⟨-, hnone, -⟩ := h.outside l
  · exact directoryAt_iff.mpr ⟨mode, hsame.trans hget⟩
  · cases hnone.symm.trans hget

end FileSystem

namespace FileAction

variable {fs fs' : FileSystem} {q : Path} {name : Text}

/-- A directory is there after it has been made. -/
theorem makes_of_makeDirectories (h : fs.Plain) (hzero : 0 ∉ q) (hname : IsName name)
    (hback : ∀ l ∈ Path.left fs.here q, fs.directoryAt l = true)
    (hrun : ((makeDirectories (Path.join q name)).run fs).run = (.ok (), fs')) :
    Makes fs fs' (Path.join q name) := by
  have hzero' := Path.zero_not_mem_join hzero hname.zero
  have hstart : (Policy.making fs (Path.location fs.here (Path.join q name))).Holds fs :=
    ⟨h, rfl, fun _ => .inl rfl⟩
  have hmake : ∀ l, l <+: Path.location fs.here (Path.join q name) ∨
      l ∈ Path.left fs.here (Path.join q name) →
      (Policy.making fs (Path.location fs.here (Path.join q name))).MayMake l := by
    rintro l (hl | hl) between hbetween hfree
    · exact .inr ⟨hl, rfl, rfl⟩
    · -- What is left again is a directory, so it is not free.
      rw [Path.left_join hname] at hl
      obtain ⟨mode, hget⟩ := directoryAt_iff.mp (hback l hl)
      obtain hsame | ⟨-, hnone, -⟩ := hbetween.may l
      · rw [hfree] at hsame
        cases hsame.trans hget
      · cases hget.symm.trans hnone
  have hafter := (preserves_makeDirectories
    (π := Policy.making fs (Path.location fs.here (Path.join q name))) hzero' hmake fs hstart).of_run
    hrun
  refine ⟨hafter.plain, hafter.here, ?_, hafter.may⟩
  obtain ⟨hthere, rfl⟩ | ⟨between, hbetween, hlast⟩ := of_makeDirectories hstart hname
    (fun above habove => preserves_ensureOne (fun hmem => hzero' (habove.bytes 0 hmem))
      (hmake _ (habove.location _))) hrun
  · exact hthere
  · exact of_ensureOne hbetween.plain hzero hname hlast

/-- A directory that is there is not made again. -/
theorem run_makeDirectories_of_isDirectory (hname : IsName name)
    (hthere : fs.isDirectory (Path.join q name) = true) :
    ((makeDirectories (Path.join q name)).run fs).run = (.ok (), fs) := by
  obtain ⟨l, mode, hstatus⟩ := isDirectory_iff.mp hthere
  unfold makeDirectories
  dsimp only
  rw [if_neg (Path.join_ne_nil hname q), run_get_bind, hstatus]
  rfl

/-- If the directory of a name is there, only the name is made. -/
theorem run_makeDirectories_join (h : fs.Plain) (hq : fs.Reaches q) (hname : IsName name)
    (hshort : (Path.join q name).length < maxPath)
    (hdirectory : fs.directoryAt (Path.location fs.here q) = true)
    (hfree : fs.get? (Path.location fs.here q ++ [name]) = none) :
    ((makeDirectories (Path.join q name)).run fs).run =
      (.ok (), fs.set (Path.location fs.here q ++ [name]) (.directory (maskedMode 0o777))) := by
  have hfile : Path.hasFileName (Path.join q name) = true := by
    simp [Path.hasFileName, Path.join_ne_nil hname, Path.getLast?_join hname]
  have hstatus := h.status_join hq hname
  rw [if_neg (Nat.not_le.mpr hshort), hfree] at hstatus
  have hancestors : ((missingAncestors ((Path.join q name).length + 1) (Path.join q name) []).run
      fs).run = (.ok [Path.join q name], fs) := by
    unfold missingAncestors
    dsimp only
    rw [Path.fileName_join hname.slash, if_neg (not_or.mpr ⟨hname.ne_dot, hname.ne_dotDot⟩),
      if_neg (by simp)]
    obtain hnil | hup := h.isDirectory_parent hq hname hshort hdirectory
    · rw [if_pos hnil]
      rfl
    · by_cases hnil : Path.parent (Path.join q name) = []
      · rw [if_pos hnil]
        rfl
      obtain ⟨l, mode, hstatus⟩ := isDirectory_iff.mp hup
      rw [if_neg hnil, run_get_bind, hstatus]
      rfl
  have hmade := run_makeDirectory h hq hname 0o777
  rw [if_neg (Nat.not_le.mpr hshort), if_neg (by simp [hfree])] at hmade
  unfold makeDirectories
  dsimp only
  rw [if_neg (Path.join_ne_nil hname q), run_get_bind, hstatus]
  dsimp only
  rw [if_neg (by decide), hfile, Bool.true_or, if_pos rfl, run_bind, hancestors]
  dsimp only
  refine (run_bind _ _ _).trans ?_
  unfold ensureOne
  rw [run_get_bind, hmade]
  rfl

end FileAction

namespace FileSystem

variable {fs : FileSystem} {at_ l : Location}

/-- What is below a location is taken away. -/
def emptied (fs : FileSystem) (at_ : Location) : FileSystem :=
  { fs with entries := fs.entries.filter fun e => !(at_.isPrefixOf e.1 && e.1 != at_) }

theorem get?_emptied (fs : FileSystem) (at_ : Location) (hl : l ≠ []) :
    (fs.emptied at_).get? l = if at_ <+: l ∧ l ≠ at_ then none else fs.get? l := by
  unfold emptied
  rw [get?_filter fs (fun l => !(at_.isPrefixOf l && l != at_)) hl]
  have hbelow : (at_.isPrefixOf l && l != at_) = true ↔ at_ <+: l ∧ l ≠ at_ := by
    rw [Bool.and_eq_true, List.isPrefixOf_iff_prefix, bne_iff_ne]
  by_cases h : at_ <+: l ∧ l ≠ at_
  · rw [if_pos h, if_neg (by rw [hbelow.mpr h]; simp)]
  · rw [if_neg h, if_pos (by rw [Bool.not_eq_true', Bool.eq_false_iff, ne_eq, hbelow]; exact h)]

theorem get?_erase_eq (fs : FileSystem) (at_ : Location) (hl : l ≠ []) :
    (fs.erase at_).get? l = if at_ <+: l then none else fs.get? l := by
  rw [get?_erase fs at_ l hl]
  simp only [List.isPrefixOf_iff_prefix]

theorem Plain.emptied (h : fs.Plain) (at_ : Location) : (fs.emptied at_).Plain :=
  h.filter fun l => !(at_.isPrefixOf l && l != at_)

theorem Plain.erase (h : fs.Plain) (at_ : Location) : (fs.erase at_).Plain :=
  h.filter fun l => !at_.isPrefixOf l

/-- No name is left in a directory that has been emptied. -/
theorem names_emptied (fs : FileSystem) (at_ : Location) : (fs.emptied at_).names at_ = [] := by
  rw [List.eq_nil_iff_forall_not_mem]
  intro name hname
  obtain ⟨entry, hentry⟩ := mem_names_iff.mp hname
  rw [get?_emptied fs at_ (by simp), if_pos ⟨List.prefix_append _ _, by simp⟩] at hentry
  cases hentry

/-- What has been emptied and taken away is gone with all that was below it. -/
theorem get?_erase_emptied (fs : FileSystem) (at_ : Location) (hl : l ≠ []) :
    ((fs.emptied at_).erase at_).get? l = if at_ <+: l then none else fs.get? l := by
  rw [get?_erase_eq _ _ hl]
  split
  · rfl
  · next hnot => rw [get?_emptied fs at_ hl, if_neg fun hboth => hnot hboth.1]

end FileSystem

namespace FileAction

variable {fs fs' : FileSystem} {q : Path} {name : Text}

/-- A file is removed, and so is an empty directory. -/
theorem run_remove (h : fs.Plain) (hq : fs.Reaches q) (hname : IsName name)
    (hshort : (Path.join q name).length < maxPath) :
    ((remove (Path.join q name)).run fs).run =
      match fs.get? (Path.location fs.here q ++ [name]) with
      | none => (.error .notFound, fs)
      | some (.directory _) =>
        if (fs.names (Path.location fs.here q ++ [name])).isEmpty
        then (.ok (), fs.erase (Path.location fs.here q ++ [name])) else (.error .notEmpty, fs)
      | some _ => (.ok (), fs.erase (Path.location fs.here q ++ [name])) := by
  unfold remove
  rw [run_get_bind, run_ask_bind, h.resolveLeaf_join hq hname, if_neg (Nat.not_le.mpr hshort)]
  dsimp only
  cases fs.get? (Path.location fs.here q ++ [name]) with
  | none => rfl
  | some entry =>
    cases entry with
    | directory =>
      dsimp only
      split <;> rfl
    | file => rfl
    | link => rfl

/-- What can be removed is removed if it is there. -/
theorem run_removeIfThere_of_remove {p : Path} (h : ((remove p).run fs).run = (.ok (), fs')) :
    ((removeIfThere p).run fs).run = (.ok (), fs') := by
  unfold removeIfThere
  rw [run_get_bind, h]
  rfl

/-- A tree that is there is removed with all that is below it. The path must not lead through the
tree and out of it again. -/
theorem run_removeAll (h : fs.Plain) (hq : fs.Reaches q) (hname : IsName name)
    (hshort : (Path.join q name).length < maxPath)
    (hback : ∀ l ∈ Path.left fs.here q, ¬ Path.location fs.here q ++ [name] <+: l)
    {entry : Entry} (hthere : fs.get? (Path.location fs.here q ++ [name]) = some entry) :
    ∃ fs', ((removeAll (Path.join q name)).run fs).run = (.ok (), fs') ∧ fs'.Plain ∧
      fs'.here = fs.here ∧ ∀ l, l ≠ [] → fs'.get? l =
        if Path.location fs.here q ++ [name] <+: l then none else fs.get? l := by
  have hentry := @Plain.entryAt_join fs ((Path.join q name).getLast? == some Path.slash) q name h hq hname
  rw [if_neg (Nat.not_le.mpr hshort), hthere] at hentry
  unfold removeAll
  rw [run_get_bind, hentry]
  cases entry with
  | link target => exact absurd hthere (h.links _ target)
  | file mode content =>
    refine ⟨fs.erase _, run_removeIfThere_of_remove ?_, h.erase _, rfl, fun l => get?_erase_eq fs _⟩
    rw [run_remove h hq hname hshort, hthere]
  | directory mode =>
    generalize hat : Path.location fs.here q ++ [name] = at_ at hback hthere ⊢
    have hreaches : (fs.emptied at_).Reaches q := by
      refine hq.mono rfl fun l hl hdirectory => ?_
      by_cases hroot : l = []
      · subst hroot
        exact hdirectory
      unfold directoryAt
      rw [get?_emptied fs at_ hroot, if_neg]
      · exact hdirectory
      rintro ⟨hbelow, -⟩
      obtain hl | hl := hl
      · exact not_name_isPrefix _ name (hat ▸ hbelow.trans hl)
      · exact hback l hl hbelow
    have hget : (fs.emptied at_).get? at_ = some (.directory mode) := by
      rw [get?_emptied fs at_ (by simp [← hat]), if_neg (by simp), hthere]
    have hremove := run_remove (h.emptied at_) hreaches hname hshort
    have hhere : (fs.emptied at_).here = fs.here := rfl
    rw [hhere, hat, hget, names_emptied] at hremove
    exact ⟨(fs.emptied at_).erase at_, run_removeIfThere_of_remove hremove,
      (h.emptied at_).erase at_, rfl, fun l => get?_erase_emptied fs at_⟩

end FileAction

end NativeBuild
