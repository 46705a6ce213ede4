import NativeBuild.Proofs.Files.Policy
import NativeBuild.Staging

/-!
# What the tasks of a build may change

A task acts on the files and logs. So it keeps to a policy if its operations on files do, and the
policy permits what the log writes to its open files.
-/
namespace NativeBuild

open FileSystem

/-- The files of a session have become what they may become, and its logs are the ones known. -/
structure Policy.HoldsIn (π : Policy) (s : Session) : Prop where
  files : π.Holds s.files
  logPlaces : s.logPlaces = π.places

variable {π : Policy} {s : Session}

theorem Policy.HoldsIn.here (h : π.HoldsIn s) : s.here = FileSystem.pathOf π.start.here := by
  unfold Session.here
  rw [h.files.here]

theorem Policy.HoldsIn.log (h : π.HoldsIn s) {after : Session} (hlog : Session.LoggedFrom s after) :
    π.HoldsIn after :=
  ⟨h.files.log (h.logPlaces ▸ hlog.files), hlog.logPlaces.trans h.logPlaces⟩

namespace Staging

theorem isName_generated : Path.IsName (utf8 "il2cppOutput") := by decide

theorem isName_additional : Path.IsName (utf8 "additionalCppFiles") := by decide

theorem isName_native : Path.IsName (utf8 "Native") := by decide

theorem isName_managed : Path.IsName (utf8 "Managed") := by decide

theorem isName_data : Path.IsName (utf8 "Data") := by decide

section Places

variable {here : Location} {dir : Path} {at_ : Location} {back : List Location}
  (h : Path.Leads here dir at_ back)
include h

theorem leads_generated (hhere : ∀ name ∈ here, Path.IsName name) :
    Path.Leads here (Staging.generated (pathOf here) dir) (at_ ++ [utf8 "il2cppOutput"]) [] :=
  (h.absoluteNormal hhere).join isName_generated

theorem leads_additional (hhere : ∀ name ∈ here, Path.IsName name) :
    Path.Leads here (additional (pathOf here) dir) (at_ ++ [utf8 "additionalCppFiles"]) [] :=
  (h.absoluteNormal hhere).join isName_additional

theorem leads_native : Path.Leads here (native dir) (at_ ++ [utf8 "Native"]) back :=
  h.join isName_native

theorem leads_managed (hhere : ∀ name ∈ here, Path.IsName name) :
    Path.Leads here (managed (pathOf here) dir) (at_ ++ [utf8 "Managed"]) [] :=
  h.absoluteNormalIn hhere isName_managed (by decide)

end Places

/-- Acting on the files tells how it ended. -/
theorem run_act {α : Type} (action : FileAction α) (s : Session) :
    (((Session.act action : SessionM _) : Job _).run s).run =
      (.ok (action.run s.files).run.1, { s with files := (action.run s.files).run.2 }) := rfl

/-- An attempt leaves the files as its action leaves them. -/
theorem run_attempt {α : Type} (tried : String) (p : Path) (action : FileAction α) (s : Session) :
    ((attempt tried p action).run s).run = match (action.run s.files).run with
      | (.ok a, files) => (.ok a, { s with files })
      | (.error e, files) =>
        (.error (.files (utf8 tried ++ utf8 ": " ++ e.message) p), { s with files }) := by
  unfold attempt
  rw [run_bind, run_act]
  cases (action.run s.files).run with
  | mk result files => cases result <;> rfl

theorem of_run_attempt {α : Type} {tried : String} {p : Path} {action : FileAction α}
    {s s' : Session} {a : α} (h : ((attempt tried p action).run s).run = (.ok a, s')) :
    ∃ files, (action.run s.files).run = (.ok a, files) ∧ s' = { s with files } := by
  rw [run_attempt] at h
  cases hrun : (action.run s.files).run with
  | mk result files =>
    rw [hrun] at h
    cases result with
    | ok x =>
      obtain ⟨hok, rfl⟩ := Prod.mk.inj h
      obtain rfl := Except.ok.inj hok
      exact ⟨files, rfl, rfl⟩
    | error e => cases congrArg Prod.fst h

section

variable {α : Type} {p dir source target : Path} {at_ : Location} {back : List Location}

theorem preservesFrom_attempt_files {J : FileSystem → Prop} {tried : String} {action : FileAction α}
    (haction : PreservesFrom J action s.files) :
    PreservesFrom (fun t => J t.files) (attempt tried p action) s := by
  unfold PreservesFrom
  rw [run_attempt]
  cases hrun : (action.run s.files).run with
  | mk result files => cases result <;> exact haction.of_run hrun

theorem preservesFrom_attempt {tried : String} {action : FileAction α} (h : π.HoldsIn s)
    (haction : PreservesFrom π.Holds action s.files) :
    PreservesFrom π.HoldsIn (attempt tried p action) s := by
  unfold PreservesFrom
  rw [run_attempt]
  cases hrun : (action.run s.files).run with
  | mk result files => cases result <;> exact ⟨haction.of_run hrun, h.logPlaces⟩

theorem preserves_attempt {tried : String} {action : FileAction α}
    (haction : Preserves π.Holds action) : Preserves π.HoldsIn (attempt tried p action) :=
  fun s h => preservesFrom_attempt h (haction s.files h.files)

theorem preserves_log (level : Log.Level) (module message : Text) :
    Preserves π.HoldsIn (Session.log level module message : Job Unit) :=
  fun s h => h.log (Session.loggedFrom_log level module message s)

/-- Everything on the way to a location may be made, and so may what is left again. -/
def MayReach (π : Policy) (at_ : Location) (back : List Location) : Prop :=
  ∀ l, l <+: at_ ∨ l ∈ back → π.MayMake l

theorem preserves_ensureDirectory (hp : Path.Leads π.start.here p at_ back)
    (hreach : MayReach π at_ back) : Preserves π.HoldsIn (ensureDirectory p) :=
  preserves_attempt (FileAction.preserves_makeDirectories hp.zero
    (by rw [hp.location, hp.left]; exact hreach))

/-- What the act preserves for each file, a visit preserves. -/
theorem preserves_visit {I : Session → Prop} {act : Text → Job Unit} {names : List Text}
    (hact : ∀ name ∈ names, ∀ s l mode content, I s →
      s.files.status (Path.join dir name) = .ok (l, .file mode content) →
      PreservesFrom I (act name) s)
    (left : Option FileError) : Preserves I (visit dir act left names) := by
  induction names generalizing left with
  | nil => exact .pure left
  | cons name rest ih =>
    have hrest := ih fun other hother => hact other (.tail _ hother)
    refine fun s h => PreservesFrom.get_bind ?_
    split
    · next l mode content hstatus =>
      exact (hact name (.head _) s l mode content h hstatus).bind
        fun _ between _ hbetween => hrest none between hbetween
    · exact hrest none s h
    · exact hrest _ s h

theorem preservesFrom_forFiles {I : Session → Prop} {act : Text → Job Unit} (h : I s)
    (hact : ∀ names, s.files.list dir = .ok names → ∀ name ∈ names, ∀ s l mode content, I s →
      s.files.status (Path.join dir name) = .ok (l, .file mode content) →
      PreservesFrom I (act name) s) :
    PreservesFrom I (forFiles dir act) s := by
  have hask : PreservesFrom I (attempt "cannot list directory" dir (FileAction.ask (·.list dir))) s := by
    unfold PreservesFrom
    rw [run_attempt, FileAction.run_ask]
    cases s.files.list dir <;> exact h
  refine hask.bind fun names between hlist hbetween => ?_
  obtain ⟨files, hrun, -⟩ := of_run_attempt hlist
  obtain ⟨hnames, -⟩ := FileAction.of_run_ask hrun
  refine (preserves_visit (hact names hnames) none between hbetween).bind
    fun left after _ hafter => ?_
  cases left with
  | none => exact .pure _ hafter
  | some e => exact .throw _ hafter

theorem preserves_forFiles {act : Text → Job Unit}
    (hact : ∀ name, Path.IsName name → ∀ s l mode content, π.HoldsIn s →
      s.files.status (Path.join dir name) = .ok (l, .file mode content) →
      PreservesFrom π.HoldsIn (act name) s) :
    Preserves π.HoldsIn (forFiles dir act) := by
  refine fun s h => preservesFrom_forFiles h fun names hlist name hname => hact name ?_
  obtain ⟨l, mode, -, rfl⟩ := FileAction.of_list hlist
  exact h.files.plain.isName_of_mem_names hname

/-- Making the files of a directory writable. -/
theorem preserves_allowWriting (hdir : Path.Leads π.start.here dir at_ back)
    (htouch : ∀ name, Path.IsName name → π.MayTouch (at_ ++ [name])) :
    Preserves π.HoldsIn (allowWriting dir) := by
  refine fun s h => PreservesFrom.get_bind ?_
  split
  · refine preserves_forFiles (fun name hname s l mode content h hfile => ?_) s h
    have hchild := hdir.join hname
    refine preservesFrom_attempt h
      (FileAction.preservesFrom_allowWriting hchild.zero ?_ h.files hfile)
    rw [hchild.location]
    exact htouch name hname
  · exact .pure _ h

/-- Making a directory anew. -/
theorem preserves_recreate (hdir : Path.Leads π.start.here dir at_ back)
    (hfree : π.FreeBelow at_) (hreach : MayReach π at_ back) :
    Preserves π.HoldsIn (recreate dir) := by
  have hmake := preserves_ensureDirectory hdir hreach
  have hremove := FileAction.preserves_removeAll hdir.zero (hdir.location.symm ▸ hfree)
  have htouch : ∀ name, Path.IsName name → π.MayTouch (at_ ++ [name]) :=
    fun name _ => (hfree.name name).free.mayWrite.mayTouch
  refine fun s h => PreservesFrom.get_bind ?_
  split
  · exact ((preserves_allowWriting hdir htouch).bind fun _ =>
      (preserves_attempt hremove).bind fun _ => hmake) s h
  · exact hmake s h

/-- Copying a directory with all below it. -/
theorem preserves_copyTree (hname : Path.IsName (Path.fileName source))
    (htarget : Path.Leads π.start.here target at_ back) (hfree : π.FreeBelow at_)
    (hreach : MayReach π at_ back) (overwrite : Bool) :
    Preserves π.HoldsIn (copyTree source target overwrite) := by
  refine fun s h => PreservesFrom.get_bind ?_
  split
  · refine (preserves_ensureDirectory htarget hreach s h).bind fun _ made _ hmade => ?_
    have hcopy := FileAction.preserves_copyTree overwrite maxPath hname htarget.zero
      (htarget.location.symm ▸ hfree) made.files hmade.files
    refine PreservesFrom.bind (?_ : PreservesFrom π.HoldsIn _ made) fun result copied _ hcopied => ?_
    · unfold PreservesFrom
      rw [run_act]
      exact ⟨hcopy, hmade.logPlaces⟩
    · split
      · exact preserves_log _ _ _ copied hcopied
      · exact .throw _ hcopied
  · exact .throw _ h

/-- Copying the files of a directory whose names have an ending. -/
theorem preserves_copyMatching (htarget : Path.Leads π.start.here target at_ back)
    (hwrite : ∀ name, Path.IsName name → π.MayWrite (at_ ++ [name]))
    (hreach : MayReach π at_ back) (ending : Text) :
    Preserves π.HoldsIn (copyMatching source target ending) := by
  refine fun s h => PreservesFrom.get_bind ?_
  split
  · refine (preserves_ensureDirectory htarget hreach s h).bind fun _ made _ hmade => ?_
    refine preserves_forFiles (fun name hname s l mode content h hfile => ?_) made hmade
    split
    · have hchild := htarget.join hname
      refine preserves_attempt (FileAction.preserves_copyFile hchild.zero ?_ true) s h
      rw [hchild.location]
      exact hwrite name hname
    · exact .pure _ h
  · exact .throw _ h

/-- Stamping a cache. -/
theorem preserves_stamp (hp : Path.Leads π.start.here p at_ back)
    (hwrite : π.MayWrite (at_ ++ [stampFile])) (commandLine : Text) :
    Preserves π.HoldsIn (stamp p commandLine) := by
  have hfile := hp.join (show Path.IsName stampFile by decide +kernel)
  refine fun s h => PreservesFrom.get_bind ?_
  dsimp only
  split
  · exact .pure _ h
  have hwritten := FileAction.preserves_write hfile.zero
    (Checksum.stamp commandLine ++ utf8 "\n") (hfile.location.symm ▸ hwrite) s.files h.files
  refine PreservesFrom.bind (?_ : PreservesFrom π.HoldsIn _ s) fun result written _ hafter => ?_
  · unfold PreservesFrom
    rw [run_act]
    exact ⟨hwritten, h.logPlaces⟩
  · split
    · exact .throw _ hafter
    · exact ((preserves_log _ _ _).bind fun _ => .pure _) written hafter

end

end Staging

end NativeBuild
