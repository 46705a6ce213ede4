import NativeBuild.Proofs.Files.Walks

/-!
# What operations on files may change

A policy says what may become of the entry at each location. Every operation changes the location
that its path leads to, and what it makes on the way there; whole trees are copied and removed below
their location. So an operation keeps to a policy, refused or not, if the policy permits these
changes.
-/
namespace NativeBuild

open FileSystem

/-- What may become of the entries of a file system. -/
structure Policy where
  start : FileSystem
  /-- The files that are open for the log. -/
  places : List Location
  may : Location → Option Entry → Option Entry → Prop
  refl : ∀ l e, may l e e
  trans : ∀ l e e' e'', may l e e' → may l e' e'' → may l e e''
  logs : ∀ l ∈ places, ∀ mode old new,
    may l (some (.file mode old)) (some (.file mode new))

namespace Policy

variable {π : Policy} {fs : FileSystem} {l : Location}

/-- The file system has become what it may become. -/
structure Holds (π : Policy) (fs : FileSystem) : Prop where
  plain : fs.Plain
  here : fs.here = π.start.here
  may : ∀ l, π.may l (π.start.get? l) (fs.get? l)

/-- Anything may become of a location. -/
def Free (π : Policy) (l : Location) : Prop := ∀ e e', π.may l e e'

/-- Anything may become of a location and of all below it. -/
def FreeBelow (π : Policy) (l : Location) : Prop := ∀ l', l <+: l' → π.Free l'

/-- A directory may be made at a location that is free. -/
def MayMake (π : Policy) (l : Location) : Prop := ∀ fs, π.Holds fs → fs.get? l = none →
  π.may l none (some (.directory (FileAction.maskedMode 0o777)))

/-- A file may be written where no directory stands. -/
def MayWrite (π : Policy) (l : Location) : Prop :=
  ∀ e mode content, (∀ other, e ≠ some (.directory other)) → π.may l e (some (.file mode content))

/-- The permission bits of a file may change. -/
def MayTouch (π : Policy) (l : Location) : Prop :=
  ∀ mode mode' content, π.may l (some (.file mode content)) (some (.file mode' content))

theorem Free.mayMake (h : π.Free l) : π.MayMake l := fun _ _ _ => h _ _

theorem Free.mayWrite (h : π.Free l) : π.MayWrite l := fun _ _ _ _ => h _ _

theorem MayWrite.mayTouch (h : π.MayWrite l) : π.MayTouch l := fun _ _ _ => h _ _ _ (by simp)

theorem FreeBelow.free (h : π.FreeBelow l) : π.Free l := h l List.prefix_rfl

theorem FreeBelow.name (h : π.FreeBelow l) (name : Text) : π.FreeBelow (l ++ [name]) :=
  fun l' hl' => h l' ((List.prefix_append l [name]).trans hl')

/-- A change that is permitted step by step. -/
theorem Holds.step (h : π.Holds fs) {after : FileSystem} (hplain : after.Plain)
    (hhere : after.here = fs.here) (hmay : ∀ l, π.may l (fs.get? l) (after.get? l)) :
    π.Holds after :=
  ⟨hplain, hhere.trans h.here, fun l => π.trans l _ _ _ (h.may l) (hmay l)⟩

theorem Holds.set (h : π.Holds fs) (hl : ∀ name ∈ l, Path.IsName name) {entry : Entry}
    (hentry : ∀ target, entry ≠ .link target) (hmay : π.may l (fs.get? l) (some entry)) :
    π.Holds (fs.set l entry) := by
  refine h.step (h.plain.set hl hentry) rfl fun l' => ?_
  obtain heq | ⟨rfl, heq⟩ := get?_set_eq_or fs l l' entry
  · rw [heq]
    exact π.refl _ _
  · rw [heq]
    exact hmay

theorem Holds.filter (h : π.Holds fs) (keep : Location → Bool)
    (hfree : ∀ l, keep l = false → π.Free l) :
    π.Holds { fs with entries := fs.entries.filter fun e => keep e.1 } := by
  refine h.step (h.plain.filter keep) rfl fun l => ?_
  by_cases hroot : l = []
  · subst hroot
    exact π.refl _ _
  rw [get?_filter fs keep hroot]
  cases hkeep : keep l with
  | true => exact π.refl _ _
  | false => exact hfree l hkeep _ _

theorem Holds.erase (h : π.Holds fs) (hfree : π.FreeBelow l) : π.Holds (fs.erase l) :=
  h.filter (fun l' => !l.isPrefixOf l') fun l' hl' => by
    rw [Bool.not_eq_false', List.isPrefixOf_iff_prefix] at hl'
    exact hfree l' hl'

theorem Holds.log (h : π.Holds fs) {after : FileSystem} (hlog : LoggedAt π.places fs after) :
    π.Holds after := by
  refine h.step (h.plain.of_loggedAt hlog) hlog.here fun l => ?_
  obtain hsame | ⟨hl, mode, old, new, hbefore, hafter⟩ := hlog.get?_eq_or l
  · rw [hsame]
    exact π.refl _ _
  · rw [hbefore, hafter]
    exact π.logs l hl mode old new

end Policy

namespace FileAction

variable {π : Policy} {p source target : Path}

theorem preserves_ask {α : Type} (I : FileSystem → Prop)
    (view : FileSystem → Except FileError α) : Preserves I (ask view) := by
  intro fs hfs
  unfold PreservesFrom
  rw [run_ask]
  exact hfs

/-- A directory is made at a free name. -/
theorem of_run_makeDirectory {fs fs' : FileSystem} {mode : Nat}
    (h : ((makeDirectory p mode).run fs).run = (.ok (), fs')) :
    ∃ at_ slashed, fs.resolveLeaf p = .ok (.name at_ slashed) ∧ fs.get? at_ = none ∧
      fs' = fs.set at_ (.directory (maskedMode mode)) := by
  unfold makeDirectory at h
  rw [run_get_bind] at h
  obtain ⟨leaf, between, hleaf, h⟩ := of_run_bind h
  obtain ⟨hresolve, rfl⟩ := of_run_ask hleaf
  split at h
  · next at_ slashed =>
    split at h
    · cases congrArg Prod.fst h
    · next hfree =>
      rw [Option.isSome_iff_ne_none, ne_eq, not_not] at hfree
      exact ⟨at_, slashed, hresolve, hfree, (congrArg Prod.snd h).symm⟩
  · cases congrArg Prod.fst h

theorem preserves_makeDirectory_of {I : FileSystem → Prop} {mode : Nat}
    (hmake : ∀ fs at_ slashed, I fs → fs.resolveLeaf p = .ok (.name at_ slashed) →
      fs.get? at_ = none → I (fs.set at_ (.directory (maskedMode mode)))) :
    Preserves I (makeDirectory p mode) := by
  refine fun fs h => PreservesFrom.get_bind ?_
  refine (preserves_ask I _ fs h).bind fun leaf between hleaf _ => ?_
  obtain ⟨hresolve, rfl⟩ := of_run_ask hleaf
  split
  · next at_ slashed =>
    split
    · exact .throw _ h
    · next hfree =>
      rw [Option.isSome_iff_ne_none, ne_eq, not_not] at hfree
      exact .set (hmake fs at_ slashed h hresolve hfree)
  · exact .throw _ h

theorem preserves_ensureOne_of {I : FileSystem → Prop} (hmake : Preserves I (makeDirectory p)) :
    Preserves I (ensureOne p) := by
  refine fun fs h => PreservesFrom.get_bind ?_
  split
  · next hrun => exact .set ((hmake fs h).of_run hrun)
  · split
    · exact .pure _ h
    · exact .throw _ h

/-- Making a directory. -/
theorem preserves_makeDirectory (hzero : 0 ∉ p) (mode : Nat)
    (hmake : ∀ fs, π.Holds fs → fs.get? (Path.location π.start.here p) = none →
      π.may (Path.location π.start.here p) none (some (.directory (maskedMode mode)))) :
    Preserves π.Holds (makeDirectory p mode) := by
  refine preserves_makeDirectory_of fun fs at_ slashed h hresolve hfree => ?_
  obtain ⟨hat, hnames⟩ := h.plain.of_resolveLeaf hzero hresolve
  rw [h.here] at hat
  refine h.set hnames (by simp) ?_
  rw [hfree, hat]
  exact hmake fs h (hat ▸ hfree)

theorem preserves_ensureOne (hzero : 0 ∉ p) (hmake : π.MayMake (Path.location π.start.here p)) :
    Preserves π.Holds (ensureOne p) :=
  preserves_ensureOne_of (preserves_makeDirectory hzero 0o777 hmake)

/-- The ancestors that are missing are on the way, and finding them changes nothing. -/
theorem run_missingAncestors (fuel : Nat) (p : Path) (found : List Path) (fs : FileSystem) :
    ∃ result, ((missingAncestors fuel p found).run fs).run = (result, fs) ∧
      ∀ all, result = .ok all → ∃ above, (∀ q ∈ above, Path.Above q p) ∧
        all = above ++ if Path.fileName p = Path.dot ∨ Path.fileName p = Path.dotDot then found
          else p :: found := by
  induction fuel generalizing p found with
  | zero => exact ⟨_, rfl, fun all hall => by cases hall⟩
  | succ fuel ih =>
    unfold missingAncestors
    dsimp only
    generalize (if Path.fileName p = Path.dot ∨ Path.fileName p = Path.dotDot then found
      else p :: found) = longer
    by_cases hmany : 1000 < longer.length
    · rw [if_pos hmany]
      exact ⟨_, rfl, fun all hall => by cases hall⟩
    rw [if_neg hmany]
    by_cases htop : Path.parent p = []
    · rw [if_pos htop]
      refine ⟨_, rfl, fun all hall => ⟨[], by simp, ?_⟩⟩
      cases hall
      rfl
    rw [if_neg htop, run_get_bind]
    split
    · refine ⟨_, rfl, fun all hall => ⟨[], by simp, ?_⟩⟩
      cases hall
      rfl
    · exact ⟨_, rfl, fun all hall => by cases hall⟩
    · next e hup =>
      by_cases habsence : e.isAbsence = true
      · rw [if_pos habsence]
        obtain ⟨result, hrun, hall⟩ := ih (Path.parent p) longer
        refine ⟨result, hrun, fun all hresult => ?_⟩
        obtain ⟨above, habove, rfl⟩ := hall all hresult
        have hhigher : ∀ q ∈ above, Path.Above q p :=
          fun q hq => (habove q hq).trans (Path.above_parent p)
        split
        · exact ⟨above, hhigher, rfl⟩
        · refine ⟨above ++ [Path.parent p], fun q hq => ?_, by simp⟩
          obtain hq | hq := List.mem_append.mp hq
          · exact hhigher q hq
          · exact List.mem_singleton.mp hq ▸ Path.above_parent p
      · rw [if_neg habsence]
        exact ⟨_, rfl, fun all hall => by cases hall⟩

/-- What each directory on the way keeps, if it is made, all of them keep. -/
theorem preserves_makeDirectories_of {I : FileSystem → Prop}
    (hmake : ∀ q, Path.Above q p → Preserves I (ensureOne q)) : Preserves I (makeDirectories p) := by
  intro fs h
  unfold makeDirectories
  dsimp only
  by_cases hne : p = []
  · rw [if_pos hne]
    exact h
  rw [if_neg hne]
  refine PreservesFrom.get_bind ?_
  split
  · exact .pure _ h
  · exact .throw _ h
  next e hstatus =>
  by_cases habsence : (!e.isAbsence) = true
  · rw [if_pos habsence]
    exact h
  rw [if_neg habsence]
  have htrimmed : Path.Above (if Path.hasFileName p || p.all (· == Path.slash) then p
      else Path.parent p) p := by
    split
    · exact .refl p
    · exact Path.above_parent p
  generalize (if Path.hasFileName p || p.all (· == Path.slash) then p
      else Path.parent p) = trimmed at htrimmed ⊢
  obtain ⟨result, hrun, hall⟩ := run_missingAncestors (p.length + 1) trimmed [] fs
  refine PreservesFrom.bind (by unfold PreservesFrom; rw [hrun]; exact h) fun all between hfound _ => ?_
  obtain ⟨rfl, rfl⟩ := Prod.mk.inj (hrun.symm.trans hfound)
  obtain ⟨above, habove, rfl⟩ := hall all rfl
  refine Preserves.forM (fun q hq => hmake q ?_) fs h
  refine Path.Above.trans ?_ htrimmed
  obtain hq | hq := List.mem_append.mp hq
  · exact habove q hq
  · split at hq
    · cases hq
    · exact List.mem_singleton.mp hq ▸ .refl _

/-- Making a directory makes nothing but directories on the way. -/
theorem preserves_makeDirectories (hzero : 0 ∉ p)
    (hmake : ∀ l, l <+: Path.location π.start.here p ∨ l ∈ Path.left π.start.here p → π.MayMake l) :
    Preserves π.Holds (makeDirectories p) :=
  preserves_makeDirectories_of fun _ hway =>
    preserves_ensureOne (fun hq => hzero (hway.bytes 0 hq)) (hmake _ (hway.location _))

/-- Finding the place of a file changes nothing. -/
theorem preserves_writable (I : FileSystem → Prop) (p : Path) (fresh : Bool) :
    Preserves I (writable p fresh) := by
  refine (preserves_ask I _).bind fun leaf => ?_
  split
  · refine (preserves_ask I _).bind fun found => ?_
    split
    · exact .pure _
    · split
      · exact .throw _
      split
      · exact .throw _
      · exact .pure _
  · refine Preserves.get.bind fun fs => ?_
    split
    · exact .throw _
    · exact .throw _
  · exact .throw _

/-- A file is written at the location of its path, where no directory stands. -/
theorem of_writable {fs fs' : FileSystem} {fresh : Bool} {at_ : Location} {before : Option Entry}
    (h : fs.Plain) (hzero : 0 ∉ p) (hrun : ((writable p fresh).run fs).run = (.ok (at_, before), fs')) :
    fs = fs' ∧ at_ = Path.location fs.here p ∧ (∀ name ∈ at_, Path.IsName name) ∧
      before = fs.get? at_ ∧ ∀ mode, before ≠ some (.directory mode) := by
  obtain ⟨rfl, -⟩ := writable_ok hrun
  refine ⟨rfl, ?_⟩
  obtain ⟨leaf, fs₁, hleaf, hrun⟩ := of_run_bind hrun
  obtain ⟨-, rfl⟩ := of_run_ask hleaf
  split at hrun
  · obtain ⟨place, fs₂, hfound, hrun⟩ := of_run_bind hrun
    obtain ⟨hresolve, rfl⟩ := of_run_ask hfound
    obtain ⟨hplace, hnames⟩ := h.place_of_resolve hzero hresolve
    split at hrun
    · obtain ⟨rfl, rfl⟩ := Prod.mk.inj (Except.ok.inj (congrArg Prod.fst hrun))
      obtain ⟨rfl, hfree⟩ := hplace
      exact ⟨rfl, hnames, hfree.symm, by simp⟩
    · next at' entry =>
      obtain ⟨rfl, hentry⟩ := hplace
      split at hrun
      · cases congrArg Prod.fst hrun
      split at hrun
      · cases congrArg Prod.fst hrun
      next hfile =>
      obtain ⟨rfl, rfl⟩ := Prod.mk.inj (Except.ok.inj (congrArg Prod.fst hrun))
      refine ⟨rfl, hnames, ?_, fun mode hmode => ?_⟩
      · cases hget : fs.get? (Path.location fs.here p) with
        | none =>
          rw [hget] at hentry
          exact absurd (hentry ▸ rfl) hfile
        | some e =>
          rw [hget] at hentry
          rw [← hentry, Option.getD_some]
      · obtain rfl := Option.some.inj hmode
        exact hfile rfl
  · obtain ⟨found, fs₂, hfound, hrun⟩ := of_run_bind hrun
    split at hrun
    · cases congrArg Prod.fst hrun
    · cases congrArg Prod.fst hrun
  · cases congrArg Prod.fst hrun

/-- Writing a file. -/
theorem preserves_write (hzero : 0 ∉ p) (content : Text)
    (hwrite : π.MayWrite (Path.location π.start.here p)) :
    Preserves π.Holds (write p content) := by
  intro fs h
  refine PreservesFrom.bind (preserves_writable π.Holds p false fs h) fun found between hfound _ => ?_
  obtain ⟨at_, before⟩ := found
  obtain ⟨rfl, rfl, hnames, rfl, hfile⟩ := of_writable h.plain hzero hfound
  rw [← h.here] at hwrite
  exact PreservesFrom.bind (.modify (h.set hnames (by simp) (hwrite _ _ _ hfile)))
    fun _ _ _ hafter => .pure _ hafter

/-- What is written stands at the location of its path. -/
theorem of_write {fs fs' : FileSystem} {content : Text} {at_ : Location} (h : fs.Plain)
    (hzero : 0 ∉ p) (hrun : ((write p content).run fs).run = (.ok at_, fs')) :
    at_ = Path.location fs.here p ∧ (∀ name ∈ at_, Path.IsName name) ∧
      (∀ mode, fs.get? at_ ≠ some (.directory mode)) ∧
      fs' = fs.set at_ (.file (match fs.get? at_ with
        | some entry => entry.mode
        | none => maskedMode 0o666) content) := by
  obtain ⟨⟨found, before⟩, fs₁, hfound, hrun⟩ := of_run_bind hrun
  obtain ⟨rfl, rfl, hnames, rfl, hfile⟩ := of_writable h hzero hfound
  obtain ⟨hok, rfl⟩ := Prod.mk.inj hrun
  obtain rfl := Except.ok.inj hok
  exact ⟨rfl, hnames, hfile, rfl⟩

/-- What a path leads to, if anything is there. -/
def lookUp (fs : FileSystem) (p : Path) : Except FileError (Option (Location × Entry)) :=
  match fs.status p with
  | .ok found => .ok (some found)
  | .error e => if e.isAbsence then .ok none else .error e

/-- Replaces a file with its permission bits. -/
def replaceFile (p : Path) (mode : Nat) (content : Text) : FileAction Unit := do
  let _ ← write p content
  setMode p mode

/-- Makes a file with its permission bits. -/
def makeFile (p : Path) (mode : Nat) (content : Text) : FileAction Unit := do
  let at_ ← write p content
  modify (·.set at_ (.file mode content))

/-- A file is copied onto a file or to a free place. -/
theorem run_copyFile (source target : Path) (overwrite : Bool) (fs : FileSystem) :
    ((copyFile source target overwrite).run fs).run =
      match lookUp fs target, fs.status source with
      | .error e, _ => (.error e, fs)
      | .ok _, .error e => (.error e, fs)
      | .ok (some (at_, .file _ _)), .ok (origin, .file mode content) =>
        if at_ = origin then (.error .alreadyExists, fs)
        else if !overwrite then (.ok (), fs)
        else ((replaceFile target mode content).run fs).run
      | .ok none, .ok (_, .file mode content) =>
        if !overwrite && (fs.entryAt false target).isOk then (.ok (), fs)
        else ((makeFile target mode content).run fs).run
      | .ok _, .ok _ => (.error .invalidArgument, fs) := by
  unfold copyFile lookUp
  dsimp only
  rw [run_get_bind]
  have hthen : ∀ there : Option (Location × Entry), ∀ k : Option (Location × Entry) → FileAction Unit,
      (((pure there : FileAction _) >>= k).run fs).run = ((k there).run fs).run := fun _ _ => rfl
  cases fs.status target with
  | error e =>
    dsimp only
    by_cases habsence : e.isAbsence = true
    · rw [if_pos habsence, if_pos habsence, hthen, run_ask_bind]
      cases fs.status source with
      | error e => rfl
      | ok found =>
        obtain ⟨origin, entry⟩ := found
        cases entry with
        | directory => rfl
        | link => rfl
        | file mode content =>
          dsimp only
          rw [run_get_bind]
          split <;> rfl
    · rw [if_neg habsence, if_neg habsence]
      rfl
  | ok there =>
    obtain ⟨at_, thereEntry⟩ := there
    dsimp only
    rw [hthen, run_ask_bind]
    cases fs.status source with
    | error e => rfl
    | ok found =>
      obtain ⟨origin, entry⟩ := found
      cases entry with
      | directory => cases thereEntry <;> rfl
      | link => cases thereEntry <;> rfl
      | file mode content =>
        cases thereEntry with
        | directory => rfl
        | link => rfl
        | file => dsimp only; split; rfl; split <;> rfl

section

variable (hzero : 0 ∉ target) (hwrite : π.MayWrite (Path.location π.start.here target))
include hzero hwrite

theorem preserves_replaceFile (mode : Nat) (content : Text) :
    Preserves π.Holds (replaceFile target mode content) := by
  intro fs h
  refine (preserves_write hzero content hwrite fs h).bind fun at_ between hrun hbetween => ?_
  obtain ⟨mode', hfile⟩ := write_ok hrun
  obtain ⟨rfl, -⟩ := of_write h.plain hzero hrun
  rw [h.here, ← hbetween.here] at hfile
  refine (preserves_ask _ _ between hbetween).bind fun found after hfound _ => ?_
  obtain ⟨hstatus, rfl⟩ := of_run_ask hfound
  obtain ⟨l, entry⟩ := found
  obtain ⟨rfl, hentry, hnames⟩ := hbetween.plain.of_status hzero hstatus
  rw [hfile, Option.getD_some] at hentry
  subst hentry
  rw [← hbetween.here] at hwrite
  refine .modify (hbetween.set hnames (by simp [Entry.withMode]) ?_)
  rw [hfile]
  exact hwrite _ _ _ (by simp)

theorem preserves_makeFile (mode : Nat) (content : Text) :
    Preserves π.Holds (makeFile target mode content) := by
  intro fs h
  refine (preserves_write hzero content hwrite fs h).bind fun at_ between hrun hbetween => ?_
  obtain ⟨mode', hfile⟩ := write_ok hrun
  obtain ⟨rfl, hnames, -⟩ := of_write h.plain hzero hrun
  refine .modify (hbetween.set hnames (by simp) ?_)
  rw [hfile, h.here]
  exact hwrite _ _ _ (by simp)

/-- Copying a file. -/
theorem preserves_copyFile (overwrite : Bool) :
    Preserves π.Holds (copyFile source target overwrite) := by
  intro fs h
  unfold PreservesFrom
  rw [run_copyFile]
  split
  · exact h
  · exact h
  · split
    · exact h
    split
    · exact h
    · exact preserves_replaceFile hzero hwrite _ _ fs h
  · split
    · exact h
    · exact preserves_makeFile hzero hwrite _ _ fs h
  · exact h

end

/-- Copies what is below a directory. -/
def copyBelow (overwrite : Bool) (fuel : Nat) (source target : Path) : FileAction Unit := do
  (← ask (·.list source)).forM fun name =>
    copyTree overwrite fuel (Path.join source name) (Path.join target name)

/-- A directory is copied into a directory, which is made if nothing is there; a file is copied into
a directory or onto what is there. -/
theorem run_copyTree (overwrite : Bool) (fuel : Nat) (source target : Path) (fs : FileSystem) :
    ((copyTree overwrite (fuel + 1) source target).run fs).run =
      match fs.status source, lookUp fs target with
      | .error e, _ => (.error e, fs)
      | .ok _, .error e => (.error e, fs)
      | .ok (origin, entry), .ok there =>
        if there.any (·.1 = origin) then (.error .alreadyExists, fs)
        else match entry, there with
          | .directory _, some (_, .file _ _) => (.error .isDirectory, fs)
          | .directory _, some _ => ((copyBelow overwrite fuel source target).run fs).run
          | .directory mode, none => ((do
              makeDirectory target mode
              copyBelow overwrite fuel source target : FileAction Unit).run fs).run
          | _, some (_, .directory _) =>
            ((copyFile source (Path.join target (Path.fileName source)) overwrite).run fs).run
          | _, _ => ((copyFile source target overwrite).run fs).run := by
  unfold copyTree lookUp
  rw [run_ask_bind]
  have hthen : ∀ there : Option (Location × Entry), ∀ k : Option (Location × Entry) → FileAction Unit,
      (((pure there : FileAction _) >>= k).run fs).run = ((k there).run fs).run := fun _ _ => rfl
  cases fs.status source with
  | error e => rfl
  | ok found =>
    obtain ⟨origin, entry⟩ := found
    dsimp only
    rw [run_get_bind]
    cases fs.status target with
    | error e =>
      dsimp only
      by_cases habsence : e.isAbsence = true
      · rw [if_pos habsence, if_pos habsence, hthen]
        cases entry <;> rfl
      · rw [if_neg habsence, if_neg habsence]
        rfl
    | ok there =>
      obtain ⟨at_, thereEntry⟩ := there
      dsimp only
      rw [hthen]
      by_cases hself : Option.any (·.1 = origin) (some (at_, thereEntry)) = true
      · rw [if_pos hself, if_pos hself]
        rfl
      · rw [if_neg hself, if_neg hself]
        cases entry <;> cases thereEntry <;> rfl

theorem list_of_status {fs : FileSystem} {l : Location} {mode : Nat}
    (h : fs.status p = .ok (l, .directory mode)) : fs.list p = .ok (fs.names l) := by
  unfold FileSystem.list
  rw [h]
  rfl

theorem of_list {fs : FileSystem} {names : List Text} (h : fs.list p = .ok names) :
    ∃ l mode, fs.status p = .ok (l, .directory mode) ∧ names = fs.names l := by
  unfold list at h
  cases hstatus : fs.status p with
  | error e =>
    rw [hstatus] at h
    cases h
  | ok found =>
    rw [hstatus] at h
    obtain ⟨l, entry⟩ := found
    cases entry with
    | directory mode =>
      cases h
      exact ⟨l, mode, rfl, rfl⟩
    | file => cases h
    | link => cases h

/-- Copying a tree. -/
theorem preserves_copyTree (overwrite : Bool) (fuel : Nat)
    (hname : Path.IsName (Path.fileName source)) (hzero : 0 ∉ target)
    (hfree : π.FreeBelow (Path.location π.start.here target)) :
    Preserves π.Holds (copyTree overwrite fuel source target) := by
  induction fuel generalizing source target with
  | zero => exact .throw _
  | succ fuel ih =>
    have hbelow : Preserves π.Holds (copyBelow overwrite fuel source target) := by
      intro fs h
      refine (preserves_ask _ _ fs h).bind fun names between hrun _ => ?_
      obtain ⟨hlist, rfl⟩ := of_run_ask hrun
      refine Preserves.forM (fun name hmem => ?_) fs h
      obtain ⟨l, mode, -, rfl⟩ := of_list hlist
      have hchild := h.plain.isName_of_mem_names hmem
      refine ih ?_ (Path.zero_not_mem_join hzero hchild.zero) ?_
      · rw [Path.fileName_join hchild.slash]
        exact hchild
      · rw [Path.location_join hchild]
        exact hfree.name name
    intro fs h
    unfold PreservesFrom
    rw [run_copyTree]
    split
    · exact h
    · exact h
    split
    · exact h
    split
    · exact h
    · exact hbelow fs h
    · exact (preserves_makeDirectory hzero _ fun _ _ _ => hfree.free _ _).bind (fun _ => hbelow) fs h
    · refine preserves_copyFile (Path.zero_not_mem_join hzero hname.zero) ?_ overwrite fs h
      rw [Path.location_join hname]
      exact (hfree.name _).free.mayWrite
    · exact preserves_copyFile hzero hfree.free.mayWrite overwrite fs h

/-- Removing what a path names. -/
theorem preserves_remove (hzero : 0 ∉ p) (hfree : π.FreeBelow (Path.location π.start.here p)) :
    Preserves π.Holds (remove p) := by
  refine fun fs h => PreservesFrom.get_bind ?_
  refine (preserves_ask π.Holds _ fs h).bind fun leaf between hleaf _ => ?_
  obtain ⟨hresolve, rfl⟩ := of_run_ask hleaf
  split
  · exact .throw _ h
  · exact .throw _ h
  · exact .throw _ h
  next at_ slashed =>
  obtain ⟨rfl, hnames⟩ := h.plain.of_resolveLeaf hzero hresolve
  rw [h.here]
  have herase := h.erase hfree
  split
  · exact .throw _ h
  · split
    · exact .set herase
    · exact .throw _ h
  · split
    · exact .throw _ h
    · exact .set herase

theorem preserves_removeIfThere (hzero : 0 ∉ p)
    (hfree : π.FreeBelow (Path.location π.start.here p)) :
    Preserves π.Holds (removeIfThere p) := by
  refine fun fs h => PreservesFrom.get_bind ?_
  have hremoved := preserves_remove hzero hfree fs h
  split
  · next hrun => exact .set (hremoved.of_run hrun)
  · exact .pure _ h
  · exact .throw _ h

/-- Removing a tree. -/
theorem preserves_removeAll (hzero : 0 ∉ p) (hfree : π.FreeBelow (Path.location π.start.here p)) :
    Preserves π.Holds (removeAll p) := by
  refine fun fs h => PreservesFrom.get_bind ?_
  have hremove := preserves_removeIfThere hzero hfree
  split
  · next at_ mode hentry =>
    obtain ⟨rfl, -, -⟩ := h.plain.of_entryAt hzero hentry
    rw [h.here]
    have hemptied := h.filter (fun l => !((Path.location π.start.here p).isPrefixOf l &&
      l != Path.location π.start.here p)) fun l hl => by
        rw [Bool.not_eq_false', Bool.and_eq_true, List.isPrefixOf_iff_prefix] at hl
        exact hfree l hl.1
    exact PreservesFrom.bind (.modify hemptied) fun _ between _ => hremove between
  · exact hremove fs h
  · exact .pure _ h
  · exact hremove fs h
  · exact hremove fs h
  · exact .throw _ h

/-- Making a file writable. -/
theorem preservesFrom_allowWriting (hzero : 0 ∉ p)
    (htouch : π.MayTouch (Path.location π.start.here p)) {fs : FileSystem} (h : π.Holds fs)
    {l : Location} {mode : Nat} {content : Text}
    (hfile : fs.status p = .ok (l, .file mode content)) :
    PreservesFrom π.Holds (allowWriting p) fs := by
  refine (preserves_ask _ _ fs h).bind fun found between hfound _ => ?_
  obtain ⟨hstatus, rfl⟩ := of_run_ask hfound
  refine (preserves_ask _ _ fs h).bind fun again between hfound _ => ?_
  obtain ⟨hagain, rfl⟩ := of_run_ask hfound
  obtain rfl := Except.ok.inj (hfile.symm.trans hstatus)
  obtain rfl := Except.ok.inj (hfile.symm.trans hagain)
  obtain ⟨rfl, hentry, hnames⟩ := h.plain.of_status hzero hfile
  refine .modify (h.set hnames (by simp [Entry.withMode]) ?_)
  cases hget : fs.get? (Path.location fs.here p) with
  | none =>
    rw [hget] at hentry
    cases hentry
  | some e =>
    rw [hget, Option.getD_some] at hentry
    rw [hentry, h.here]
    exact htouch _ _ _

end FileAction

end NativeBuild
