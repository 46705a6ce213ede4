import NativeBuild.Proofs.Build.Tailing
import NativeBuild.Proofs.Staging.Reordered

/-!
# Builds whose files are enumerated in another order

No step of a build that runs the generator looks at the order in which files are enumerated. So two
builds that differ in that order only stay abreast: each step has the same result in both, and leaves
two states that differ in the order of their files only. It is up to the collaborators and to the
launcher whether what they do stays abreast as well.
-/
namespace NativeBuild

namespace Run

/-- Steps of two processes that are the same, or change files alike whatever their order. -/
inductive Step.Alike : Step → Step → Prop
  | line (isError : Bool) (text : Text) : Alike (.line isError text) (.line isError text)
  | change {edit edit' : FileSystem → FileSystem}
    (h : ∀ fs fs', FileSystem.Reordered fs fs' → FileSystem.Reordered (edit fs) (edit' fs')) :
    Alike (.change edit) (.change edit')
  | log (level : Log.Level) (message : Text) : Alike (.log level message) (.log level message)
  | poll : Alike .poll .poll
  | cancel : Alike .cancel .cancel

/-- Two processes do the same, whatever the order of files. -/
structure Alike (run run' : Run) : Prop where
  steps : List.Forall₂ Step.Alike run.steps run'.steps
  ending : run'.ending = run.ending

end Run

/-- Two answers of collaborators, each to its own files: the same value, and alike besides. -/
structure Reply.Alike {α : Type} (fs fs' : FileSystem) (reply reply' : Reply α) : Prop where
  value : reply'.value = reply.value
  cancels : reply'.cancels = reply.cancels
  printed : reply'.printed = reply.printed
  files : FileSystem.Reordered (reply.change fs) (reply'.change fs')

namespace Build

/-- The same process is launched, and finds the same files in another order. -/
def SameLaunch (launch launch' : ProcessSpec × FileSystem) : Prop :=
  launch'.1 = launch.1 ∧ FileSystem.Reordered launch.2 launch'.2

/-- The same event, but for the order of files that a process finds. -/
inductive Event.Reordered : Event → Event → Prop
  | launched (spec : ProcessSpec) {files files' : FileSystem}
    (h : FileSystem.Reordered files files') : Reordered (.launched spec files) (.launched spec files')
  | same {e : Event} (h : launches [e] = []) : Reordered e e

theorem sameLaunch_of_events {es es' : List Event} (h : List.Forall₂ Event.Reordered es es') :
    List.Forall₂ SameLaunch (launches es) (launches es') := by
  induction h with
  | nil => exact .nil
  | @cons e e' es es' he _ ih =>
    have hlaunches (f : Event) (fs : List Event) :
        launches (f :: fs) = launches [f] ++ launches fs := launches_append [f] fs
    rw [hlaunches e, hlaunches e']
    cases he with
    | launched spec hfiles => exact .cons ⟨rfl, hfiles⟩ ih
    | same hnone => rwa [hnone]

/-- Two states of builds that differ in the order of files only, here and wherever a process has
been launched. -/
structure State.Reordered (s s' : State) : Prop where
  session : s.session.Reordered s'.session
  cancelled : s'.cancelled = s.cancelled
  phase : s'.phase = s.phase
  events : List.Forall₂ Event.Reordered s.events s'.events

theorem State.Reordered.launches_eq {s s' : State} (h : s.Reordered s') :
    s'.launches = s.launches := by
  rw [State.launches_eq, State.launches_eq, (sameLaunch_of_events h.events).length_eq]

/-- From two states, two steps of builds end alike. -/
def AlikeFrom {α : Type} (m m' : BuildM α) (s s' : State) : Prop :=
  SameUpTo State.Reordered (exec m s) (exec m' s')

/-- Two steps of builds end alike from all states that differ in the order of files only. -/
def Alike {α : Type} (m m' : BuildM α) : Prop := ∀ s s', s.Reordered s' → AlikeFrom m m' s s'

section Closure

variable {α β : Type} {m m' : BuildM α} {f f' : α → BuildM β} {s s' : State}

theorem AlikeFrom.bind (hm : AlikeFrom m m' s s')
    (hf : ∀ a t t', t.Reordered t' → AlikeFrom (f a) (f' a) t t') :
    AlikeFrom (m >>= f) (m' >>= f') s s' :=
  SameUpTo.bind hm hf

/-- What follows starts from where the two steps have ended. -/
theorem AlikeFrom.bind_exec (hm : AlikeFrom m m' s s')
    (hf : ∀ a t t', exec m s = (.ok a, t) → exec m' s' = (.ok a, t') → t.Reordered t' →
      AlikeFrom (f a) (f' a) t t') :
    AlikeFrom (m >>= f) (m' >>= f') s s' :=
  SameUpTo.bind_run hm hf

theorem Alike.bind (hm : Alike m m') (hf : ∀ a, Alike (f a) (f' a)) :
    Alike (m >>= f) (m' >>= f') :=
  fun s s' h => (hm s s' h).bind fun a t t' ht => hf a t t' ht

theorem AlikeFrom.get_bind {g g' : State → BuildM β} (hg : AlikeFrom (g s) (g' s') s s') :
    AlikeFrom (get >>= g) (get >>= g') s s' := hg

theorem Alike.get_bind {g g' : State → BuildM β}
    (hg : ∀ s s', s.Reordered s' → AlikeFrom (g s) (g' s') s s') :
    Alike (get >>= g) (get >>= g') := fun s s' h => .get_bind (hg s s' h)

theorem Alike.pure (a : α) : Alike (pure a : BuildM α) (pure a) := fun _ _ h => ⟨rfl, h⟩

theorem Alike.throw (e : Stop) : Alike (throw e : BuildM α) (throw e) := fun _ _ h => ⟨rfl, h⟩

theorem Alike.fail (failure : Failure) : Alike (fail failure : BuildM α) (fail failure) :=
  .throw (.failed failure)

/-- A value that is there already, or a failure. -/
theorem AlikeFrom.succeed_bind (h : s.Reordered s') (result : Except Failure α)
    (hf : ∀ a, AlikeFrom (f a) (f' a) s s') :
    AlikeFrom (succeed result >>= f) (succeed result >>= f') s s' := by
  cases result with
  | ok a => exact hf a
  | error failure => exact ⟨rfl, h⟩

theorem Alike.liftSession {step step' : SessionM α}
    (h : ∀ s s' : Session, s.Reordered s' →
      SameUpTo Session.Reordered (step.run s) (step'.run s')) :
    Alike (liftSession step) (liftSession step') := by
  intro s s' hs
  have hstep := h _ _ hs.session
  exact ⟨congrArg Except.ok hstep.result, { hs with session := hstep.states }⟩

theorem Alike.perform {task task' : Job α}
    (h : ∀ s s' : Session, s.Reordered s' →
      SameUpTo Session.Reordered (task.run s).run (task'.run s').run) :
    Alike (perform task) (perform task') := by
  refine (Alike.liftSession h).bind fun result => ?_
  cases result with
  | ok a => exact .pure a
  | error failure => exact .throw _

theorem Alike.log (level : Log.Level) (module message : Text) :
    Alike (log level module message) (log level module message) :=
  .liftSession fun _ _ h => Session.sameUpTo_log h level module message

theorem AlikeFrom.changeFiles {change change' : FileSystem → FileSystem} (h : s.Reordered s')
    (hchange : FileSystem.Reordered (change s.session.files) (change' s'.session.files)) :
    AlikeFrom (changeFiles change) (changeFiles change') s s' := by
  obtain ⟨files, -, hsession⟩ := h.session
  unfold AlikeFrom
  rw [exec_changeFiles, exec_changeFiles]
  refine ⟨rfl, { h with session := ⟨_, hchange, ?_⟩ }⟩
  dsimp only
  rw [hsession]

theorem Alike.record {e e' : Event} (he : e.Reordered e') : Alike (record e) (record e') :=
  fun _ _ h => ⟨rfl, { h with events := List.rel_append h.events (.cons he .nil) }⟩

theorem Alike.forM {f f' : α → BuildM Unit} (hf : ∀ a, Alike (f a) (f' a)) (as : List α) :
    Alike (forM as f) (forM as f') := by
  induction as with
  | nil => exact .pure ()
  | cons a as ih => exact (hf a).bind fun _ => ih

theorem Alike.cancel : Alike cancel cancel := by
  intro s s' h
  refine ⟨rfl, ?_⟩
  change State.Reordered (if s.cancelled then s else _) (if s'.cancelled then s' else _)
  rw [h.cancelled]
  split
  · exact h
  · exact { h with cancelled := rfl, events := List.rel_append h.events (.cons (.same rfl) .nil) }

theorem Alike.print (t : Text) :
    Alike (Build.liftSession (Session.print t)) (Build.liftSession (Session.print t)) := by
  refine .liftSession fun s s' h => ?_
  obtain ⟨files, hfiles, rfl⟩ := h
  exact ⟨rfl, files, hfiles, rfl⟩

/-- Collaborators that answer alike are asked alike. -/
theorem AlikeFrom.ask {query query' : Query α} (h : s.Reordered s')
    (hreply : Reply.Alike s.session.files s'.session.files (query s.session.files)
      (query' s'.session.files)) : AlikeFrom (ask query) (ask query') s s' := by
  refine .get_bind ?_
  dsimp only
  rw [hreply.value, hreply.cancels, hreply.printed]
  refine (AlikeFrom.changeFiles h hreply.files).bind fun _ => ?_
  refine (Alike.print _).bind fun _ => ?_
  split
  · exact Alike.cancel.bind fun _ => .pure _
  · exact .pure _

/-- What is done of a process is followed alike. -/
theorem Alike.play {σ : Type} {onLine : Bool → Text → σ → BuildM σ} {onPoll : σ → BuildM σ}
    (hline : ∀ isError text w, Alike (onLine isError text w) (onLine isError text w))
    (hpoll : ∀ w, Alike (onPoll w) (onPoll w)) {steps steps' : List Run.Step}
    (hsteps : List.Forall₂ Run.Step.Alike steps steps') (w : σ) :
    Alike (play onLine onPoll steps w) (play onLine onPoll steps' w) := by
  induction hsteps generalizing w with
  | nil => exact .pure w
  | cons hstep _ ih =>
    cases hstep with
    | line isError text => exact (hline isError text w).bind ih
    | change hedit =>
      exact fun s s' h => (AlikeFrom.changeFiles h (hedit _ _ h.session.files)).bind fun _ => ih w
    | log level message => exact (Alike.log _ _ _).bind fun _ => ih w
    | poll => exact (hpoll w).bind ih
    | cancel => exact Alike.cancel.bind fun _ => ih w

theorem AlikeFrom.launch {σ : Type} {launcher : Launcher} {spec : ProcessSpec}
    {onLine : Bool → Text → σ → BuildM σ} {onPoll : σ → BuildM σ}
    (hline : ∀ isError text w, Alike (onLine isError text w) (onLine isError text w))
    (hpoll : ∀ w, Alike (onPoll w) (onPoll w)) (w : σ) (h : s.Reordered s')
    (hrun : Run.Alike (launcher s.launches spec s.session.files)
      (launcher s.launches spec s'.session.files)) :
    AlikeFrom (launch launcher spec onLine onPoll w) (launch launcher spec onLine onPoll w)
      s s' := by
  have hrecord := Alike.record (.launched spec h.session.files) s s' h
  refine .get_bind (hrecord.bind fun _ => ?_)
  rw [h.launches_eq]
  refine (Alike.play hline hpoll hrun.steps w).bind fun w => ?_
  rw [hrun.ending]
  split
  · exact .pure _
  · exact .pure _
  · exact .throw _

end Closure

end Build

open Build

namespace Diagnostic

theorem sameUpTo_contentOf (file : Path) {s s' : Session} (h : s.Reordered s') :
    SameUpTo Session.Reordered ((contentOf file).run s) ((contentOf file).run s') :=
  ⟨congrArg Except.toOption (h.files.read_eq file), h⟩

theorem sameUpTo_note (file : Path) (e : Event) {s s' : Session} (h : s.Reordered s') :
    SameUpTo Session.Reordered ((e.note file).run s) ((e.note file).run s') := by
  cases e with
  | restarted => exact Session.sameUpTo_log h _ _ _
  | reported d => exact ⟨rfl, h⟩
  | refused cause =>
    cases cause with
    | malformed e =>
      exact (Session.sameUpTo_log h _ _ _).bind_step fun _ _ _ ht => Session.sameUpTo_log ht _ _ _
    | incomplete => exact Session.sameUpTo_log h _ _ _

end Diagnostic

namespace Plan

theorem alike_checkCancelled : Alike checkCancelled checkCancelled := by
  refine .get_bind fun s s' h => ?_
  rw [h.cancelled, h.phase]
  split
  · exact (Alike.log _ _ _).bind (fun _ => .fail _) s s' h
  · exact Alike.pure () s s' h

theorem alike_onLine (isError : Bool) (line : Text) (w : Watch) :
    Alike (onLine isError line w) (onLine isError line w) := by
  unfold onLine
  split
  · exact (Alike.log _ _ _).bind fun _ => .pure _
  · exact (Alike.log _ _ _).bind fun _ => .pure _

variable (p : Plan) (here : Path) (spec : ProcessSpec)

/-- The caller's sink does the same with a diagnostic, whatever the order of files. -/
def SinksAlike : Prop :=
  ∀ sink ∈ p.collaborators.diagnostics, ∀ d fs fs', FileSystem.Reordered fs fs' →
    Reply.Alike fs fs' (sink d fs) (sink d fs')

section Sink

variable {p} (hsink : p.SinksAlike)
include hsink

theorem alike_report (d : Diagnostic) : Alike (p.report d) (p.report d) := by
  unfold report
  cases h : p.collaborators.diagnostics with
  | none =>
    exact (Alike.record (.same rfl)).bind fun _ =>
      .liftSession fun _ _ ht => Session.sameUpTo_log ht _ _ _
  | some sink =>
    exact (Alike.record (.same rfl)).bind fun _ s s' ht =>
      .ask ht (hsink sink h d _ _ ht.session.files)

/-- Whatever is made of the content of the file, a look at it finds the same. -/
theorem alike_watch (file : Path) (look : Diagnostic.Tail.Look) (w : Watch) :
    Alike (p.watch file look w) (p.watch file look w) := by
  rw [watch_eq]
  refine (Alike.liftSession fun _ _ => Diagnostic.sameUpTo_contentOf file).bind fun content => ?_
  refine Alike.bind (.forM (fun e => ?_) _) fun _ => .pure _
  unfold Diagnostic.Event.tell
  split
  · exact alike_report hsink _
  · exact .liftSession fun _ _ => Diagnostic.sameUpTo_note file _

end Sink

theorem alike_prepareProcess : Alike (p.prepareProcess here spec) (p.prepareProcess here spec) := by
  refine (Alike.perform fun _ _ h => Staging.sameUpTo_ensureDirectory h _).bind fun _ => ?_
  refine (Alike.perform fun _ _ h => Staging.sameUpTo_attempt _ _
    (FileAction.alike_removeIfThere h.files _) h).bind fun _ => ?_
  exact alike_checkCancelled.bind fun _ => .log _ _ _

theorem alike_conclude (result : Except Text Int) (w : Watch) :
    Alike (conclude spec result w) (conclude spec result w) := by
  unfold conclude
  split
  · exact .fail _
  · exact .log _ _ _
  · exact .fail _

/-- A generator that does the same is followed alike. -/
theorem alikeFrom_followProcess (hsink : p.SinksAlike) {s s' : State} (h : s.Reordered s')
    (hrun : Run.Alike (p.launcher s.launches spec s.session.files)
      (p.launcher s.launches spec s'.session.files)) :
    AlikeFrom (p.followProcess here spec) (p.followProcess here spec) s s' := by
  unfold followProcess
  refine (AlikeFrom.launch alike_onLine (alike_watch hsink _ _) {} h hrun).bind fun ended => ?_
  exact (alike_watch hsink _ _ ended.2).bind fun w => alike_conclude spec ended.1 w

end Plan

end NativeBuild
