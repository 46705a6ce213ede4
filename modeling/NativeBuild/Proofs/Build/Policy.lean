import NativeBuild.Proofs.Build.Configuration
import NativeBuild.Proofs.Staging.Policy

/-!
# What the phases of a build may change

A build changes files by its own tasks, by what its collaborators do when they are asked, and by
what the processes do that it launches. Each phase keeps to a policy that permits all of these.
The work before staging changes the cache, the temporary directory and the files directly in the
managed directory; staging changes the places that it publishes to.
-/
namespace NativeBuild

namespace Session

/-- A step that changes nothing but the log. -/
def OnlyLogs {α : Type} (step : SessionM α) : Prop := ∀ s, LoggedFrom s (step.run s).2

variable {α β : Type}

theorem OnlyLogs.pure (a : α) : OnlyLogs (Pure.pure a) := fun s => .refl s

theorem OnlyLogs.bind {step : SessionM α} {next : α → SessionM β} (h : OnlyLogs step)
    (hnext : ∀ a, OnlyLogs (next a)) : OnlyLogs (step >>= next) :=
  fun s => (h s).trans (hnext _ _)

theorem OnlyLogs.log (level : Log.Level) (module message : Text) :
    OnlyLogs (Session.log level module message) := loggedFrom_log level module message

end Session

theorem Diagnostic.onlyLogs_contentOf (file : Path) : Session.OnlyLogs (contentOf file) :=
  fun s => .refl s

theorem Diagnostic.onlyLogs_note (file : Path) (e : Event) : Session.OnlyLogs (e.note file) := by
  cases e with
  | restarted => exact .log _ _ _
  | reported d => exact .pure ()
  | refused cause =>
    cases cause with
    | malformed => exact (Session.OnlyLogs.log _ _ _).bind fun _ => .log _ _ _
    | incomplete => exact .log _ _ _

open FileSystem

variable {π : Policy}

/-- The files of a build have become what they may become. -/
def Policy.HoldsFor (π : Policy) (s : Build.State) : Prop := π.HoldsIn s.session

/-- A change of the files that a policy permits. -/
def Policy.Allows (π : Policy) (change : FileSystem → FileSystem) : Prop :=
  ∀ fs, π.Holds fs → π.Holds (change fs)

/-- A collaborator that changes nothing but what a policy permits. -/
def Policy.Trusts {α : Type} (π : Policy) (query : Query α) : Prop :=
  ∀ fs, π.Holds fs → π.Holds ((query fs).change fs)

namespace Build

variable {α : Type} {s : State}

theorem preservesFrom_perform {task : Job α} (h : PreservesFrom π.HoldsIn task s.session) :
    PreservesFrom π.HoldsFor (perform task) s := by
  have hperform : ((perform task).run s).run = exec (perform task) s := rfl
  unfold PreservesFrom
  rw [hperform, exec_perform]
  cases hrun : (task.run s.session).run with
  | mk result session => cases result <;> exact h.of_run hrun

theorem preserves_perform {task : Job α} (h : Preserves π.HoldsIn task) :
    Preserves π.HoldsFor (perform task) :=
  fun s hs => preservesFrom_perform (h s.session hs)

theorem preserves_modify {f : State → State} (h : ∀ s, (f s).session = s.session) :
    Preserves π.HoldsFor (modify f : BuildM Unit) := by
  intro s hs
  have hsession : π.HoldsIn (f s).session := (h s).symm ▸ hs
  exact hsession

theorem preserves_record (e : Event) : Preserves π.HoldsFor (record e) :=
  preserves_modify fun _ => rfl

theorem preserves_cancel : Preserves π.HoldsFor cancel := by
  refine preserves_modify fun s => ?_
  split <;> rfl

theorem preserves_liftSession {step : SessionM α} (h : Session.OnlyLogs step) :
    Preserves π.HoldsFor (liftSession step) :=
  fun s hs => hs.log (h s.session)

theorem preserves_log (level : Log.Level) (module message : Text) :
    Preserves π.HoldsFor (log level module message) :=
  preserves_liftSession (.log level module message)

theorem preserves_fail (failure : Failure) : Preserves π.HoldsFor (fail failure : BuildM α) :=
  .throw _

theorem preserves_succeed (result : Except Failure α) :
    Preserves π.HoldsFor (succeed result) := by
  cases result with
  | ok a => exact .pure a
  | error failure => exact .throw _

theorem preserves_changeFiles {change : FileSystem → FileSystem} (h : π.Allows change) :
    Preserves π.HoldsFor (changeFiles change) :=
  fun s hs => ⟨h s.session.files hs.files, hs.logPlaces⟩

/-- A write that is permitted, whatever comes of it. -/
theorem preserves_act {action : FileAction α} (h : Preserves π.Holds action) :
    Preserves π.HoldsFor (liftSession (Session.act action)) :=
  fun s hs => ⟨h s.session.files hs.files, hs.logPlaces⟩

theorem preserves_ask {query : Query α} (h : π.Trusts query) :
    Preserves π.HoldsFor (ask query) := by
  intro s hs
  have hask : ((ask query).run s).run = exec (ask query) s := rfl
  unfold PreservesFrom Policy.HoldsFor
  rw [hask, exec_ask_session]
  exact ⟨h _ hs.files, hs.logPlaces⟩

theorem preserves_tell {event : α → Event} {listener : α → Query Unit} {a : α}
    (h : π.Trusts (listener a)) : Preserves π.HoldsFor (tell event listener a) :=
  (preserves_record _).bind fun _ => preserves_ask h

theorem preserves_askIfThere {query : Option (Query α)} (h : ∀ q ∈ query, π.Trusts q) :
    Preserves π.HoldsFor (askIfThere query) := by
  cases query with
  | none => exact .pure none
  | some query => exact (preserves_ask (h query rfl)).map some

section Launch

variable {w : Type} {onLine : Bool → Text → w → BuildM w} {onPoll : w → BuildM w}
  (hline : ∀ isError text x, Preserves π.HoldsFor (onLine isError text x))
  (hpoll : ∀ x, Preserves π.HoldsFor (onPoll x))
include hline hpoll

theorem preserves_play {steps : List Run.Step} (h : ∀ edit, .change edit ∈ steps → π.Allows edit)
    (x : w) : Preserves π.HoldsFor (play onLine onPoll steps x) := by
  induction steps generalizing x with
  | nil => exact .pure x
  | cons step steps ih =>
    have hrest := ih fun edit hedit => h edit (.tail _ hedit)
    cases step with
    | line isError text => exact (hline isError text x).bind hrest
    | change edit => exact (preserves_changeFiles (h edit (.head _))).bind fun _ => hrest x
    | log level message => exact (preserves_log level _ message).bind fun _ => hrest x
    | poll => exact (hpoll x).bind hrest
    | cancel => exact preserves_cancel.bind fun _ => hrest x

theorem preserves_launch {launcher : Launcher} {spec : ProcessSpec}
    (h : ∀ number fs edit, .change edit ∈ (launcher number spec fs).steps → π.Allows edit)
    (x : w) : Preserves π.HoldsFor (launch launcher spec onLine onPoll x) := by
  refine Preserves.get.bind fun s => (preserves_record _).bind fun _ => ?_
  refine (preserves_play hline hpoll (h _ _) x).bind fun y => ?_
  split
  · exact .pure _
  · exact .pure _
  · exact .throw _

end Launch

end Build

end NativeBuild
