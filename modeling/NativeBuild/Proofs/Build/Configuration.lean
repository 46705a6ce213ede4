import NativeBuild.Proofs.Build.Coupling
import NativeBuild.Proofs.Build.Order
import NativeBuild.Proofs.Log.Places

/-!
# Plans that are refused

A plan is refused for its configuration in the first phase or not at all. The first phase asks for
the definitions and for the name of the profile, and whoever asks again later gets the same answer.
All other work fails for other reasons: a file operation, a process, or a cancellation. So a build
that is refused has launched nothing and changed nothing but its log.
-/
namespace NativeBuild

/-- The plan is not the reason for the failure. -/
def Failure.OfWork (f : Failure) : Prop := f.kind ≠ .configuration

namespace Staging

theorem throws_attempt {α : Type} (tried : String) (p : Path) (action : FileAction α) :
    Throws Failure.OfWork (attempt tried p action) := by
  refine (Throws.lift _).bind fun result => ?_
  cases result with
  | ok a => exact .pure a
  | error e => exact .throw (by simp [Failure.OfWork, Failure.files])

theorem throws_visit (dir : Path) {act : Text → Job Unit}
    (hact : ∀ name, Throws Failure.OfWork (act name)) (left : Option FileError)
    (names : List Text) : Throws Failure.OfWork (visit dir act left names) := by
  induction names generalizing left with
  | nil => exact .pure left
  | cons name rest ih =>
    refine Throws.get.bind fun s => ?_
    split
    · exact (hact name).bind fun _ => ih none
    · exact ih none
    · exact ih _

theorem throws_forFiles (dir : Path) {act : Text → Job Unit}
    (hact : ∀ name, Throws Failure.OfWork (act name)) :
    Throws Failure.OfWork (forFiles dir act) := by
  refine (throws_attempt _ _ _).bind fun names => ?_
  refine (throws_visit dir hact none names).bind fun left => ?_
  cases left with
  | none => exact .pure ()
  | some e => exact .throw (by simp [Failure.OfWork, Failure.files])

theorem throws_allowWriting (dir : Path) : Throws Failure.OfWork (allowWriting dir) := by
  refine Throws.get.bind fun s => ?_
  split
  · exact throws_forFiles dir fun name => throws_attempt _ _ _
  · exact .pure ()

theorem throws_recreate (dir : Path) : Throws Failure.OfWork (recreate dir) := by
  refine Throws.get.bind fun s => ?_
  split
  · exact (throws_allowWriting dir).bind fun _ =>
      (throws_attempt _ _ _).bind fun _ => throws_attempt _ _ _
  · exact throws_attempt _ _ _

theorem throws_copyTree (source target : Path) (overwrite : Bool) :
    Throws Failure.OfWork (copyTree source target overwrite) := by
  refine Throws.get.bind fun s => ?_
  split
  · refine (throws_attempt _ _ _).bind fun _ => (Throws.lift _).bind fun result => ?_
    cases result with
    | ok => exact .lift _
    | error e => exact .throw (by simp [Failure.OfWork, Failure.files])
  · exact .throw (by simp [Failure.OfWork, Failure.files])

theorem throws_copyMatching (source target : Path) (ending : Text) :
    Throws Failure.OfWork (copyMatching source target ending) := by
  refine Throws.get.bind fun s => ?_
  split
  · refine (throws_attempt _ _ _).bind fun _ => throws_forFiles source fun name => ?_
    split
    · exact throws_attempt _ _ _
    · exact .pure ()
  · exact .throw (by simp [Failure.OfWork, Failure.files])

theorem throws_stamp (cache : Path) (commandLine : Text) :
    Throws Failure.OfWork (stamp cache commandLine) := by
  refine Throws.get.bind fun s => ?_
  dsimp only
  split
  · exact .pure false
  · refine (Throws.lift _).bind fun result => ?_
    cases result with
    | ok => exact (Throws.lift _).bind fun _ => .pure true
    | error e => exact .throw (by simp [Failure.OfWork, Failure.files])

end Staging

namespace Build

/-- The plan is not the reason why a build stops. -/
def Stop.OfWork : Stop → Prop
  | .failed failure => failure.OfWork
  | .broken _ => True

/-- A task of the session gives its result or its failure to the build. -/
theorem exec_perform {α : Type} (task : Job α) (s : State) :
    exec (perform task) s = match (task.run s.session).run with
      | (.ok a, session) => (.ok a, { s with session })
      | (.error failure, session) => (.error (.failed failure), { s with session }) := by
  unfold perform
  rw [exec_bind_ok (exec_liftSession task.run s)]
  unfold StateT.run
  cases task.run s.session with
  | mk result session => cases result <;> rfl

section Throws

variable {α : Type}

theorem throws_perform {task : Job α} (h : Throws Failure.OfWork task) :
    Throws Stop.OfWork (perform task) := by
  intro s e final hexec
  have hperform : exec (perform task) s = (.error e, final) := hexec
  rw [exec_perform] at hperform
  cases hrun : (task.run s.session).run with
  | mk result session =>
    rw [hrun] at hperform
    cases result with
    | ok a => cases congrArg Prod.fst hperform
    | error failure =>
      cases congrArg Prod.fst hperform
      exact h s.session failure session hrun

theorem throws_fail {failure : Failure} (h : failure.OfWork) :
    Throws Stop.OfWork (fail failure : BuildM α) := .throw h

theorem throws_succeed (a : α) : Throws Stop.OfWork (succeed (.ok a)) := .pure a

theorem throws_liftSession (step : SessionM α) : Throws Stop.OfWork (liftSession step) := by
  intro s e final h
  cases congrArg Prod.fst h

theorem throws_log (level : Log.Level) (module message : Text) :
    Throws Stop.OfWork (log level module message) := throws_liftSession _

theorem throws_modify (f : State → State) : Throws Stop.OfWork (modify f : BuildM Unit) := by
  intro s e final h
  cases congrArg Prod.fst h

theorem throws_ask (query : Query α) : Throws Stop.OfWork (ask query) := by
  intro s e final h
  obtain ⟨after, rest, hexec, -⟩ := exec_ask query s
  cases congrArg Prod.fst (hexec.symm.trans h)

theorem throws_askIfThere (query : Option (Query α)) : Throws Stop.OfWork (askIfThere query) := by
  cases query with
  | none => exact .pure none
  | some query => exact (throws_ask query).map some

section Launch

variable {w : Type} {onLine : Bool → Text → w → BuildM w} {onPoll : w → BuildM w}
  (hline : ∀ isError text x, Throws Stop.OfWork (onLine isError text x))
  (hpoll : ∀ x, Throws Stop.OfWork (onPoll x))
include hline hpoll

theorem throws_play (steps : List Run.Step) (x : w) :
    Throws Stop.OfWork (play onLine onPoll steps x) := by
  induction steps generalizing x with
  | nil => exact .pure x
  | cons step steps ih =>
    cases step with
    | line isError text => exact (hline isError text x).bind ih
    | change edit => exact (throws_modify _).bind fun _ => ih x
    | log level message => exact (throws_log level _ message).bind fun _ => ih x
    | poll => exact (hpoll x).bind ih
    | cancel => exact (throws_modify _).bind fun _ => ih x

theorem throws_launch (launcher : Launcher) (spec : ProcessSpec) (x : w) :
    Throws Stop.OfWork (launch launcher spec onLine onPoll x) := by
  refine Throws.get.bind fun s => (throws_modify _).bind fun _ => ?_
  refine (throws_play hline hpoll _ x).bind fun y => ?_
  split
  · exact .pure _
  · exact .pure _
  · exact .throw trivial

end Launch

theorem throws_writePreserved (managed : Path) (types : List Text) :
    Throws Stop.OfWork (writePreserved managed types) := by
  unfold writePreserved
  split
  · exact .pure []
  · refine (throws_liftSession _).bind fun result => ?_
    cases result with
    | ok => exact .pure _
    | error => exact throws_fail (by simp [Failure.OfWork, Failure.files])

theorem throws_onStripLine (isError : Bool) (line : Text) (errors : List Text) :
    Throws Stop.OfWork (onStripLine isError line errors) := by
  unfold onStripLine
  dsimp only
  split
  · exact (throws_log _ _ _).bind fun _ => .pure _
  · exact (throws_log _ _ _).bind fun _ => .pure _

theorem throws_runStripTool (launcher : Launcher) (tool : Path) (request : StripRequest) :
    Throws Stop.OfWork (runStripTool launcher tool request) := by
  unfold runStripTool
  split
  · exact throws_log _ _ _
  refine Throws.bind ?_ fun spec => ?_
  · refine (throws_askIfThere _).bind fun types => (throws_writePreserved _ _).bind fun file => ?_
    exact (throws_askIfThere _).bind fun linker => (throws_log _ _ _).bind fun _ => .pure _
  · refine (throws_launch throws_onStripLine (fun x => .pure x) _ _ _).bind fun ended => ?_
    obtain ⟨result, errors⟩ := ended
    dsimp only
    split
    · exact throws_fail (by simp [Failure.OfWork])
    · exact .pure ()
    · exact throws_fail (by simp [Failure.OfWork])

end Throws

end Build

namespace Plan

open Build

theorem throws_checkCancelled : Throws Stop.OfWork checkCancelled := by
  refine Throws.get.bind fun s => ?_
  split
  · exact (throws_log _ _ _).bind fun _ => throws_fail (by simp [Failure.OfWork, Failure.cancelled])
  · exact .pure ()

theorem throws_enter (p : Plan) (phase : Phase) : Throws Stop.OfWork (p.enter phase) := by
  refine throws_checkCancelled.bind fun _ => (throws_modify _).bind fun _ => ?_
  refine (throws_modify _).bind fun _ => (throws_log _ _ _).bind fun _ => ?_
  split
  · exact (throws_modify _).bind fun _ => throws_ask _
  · exact .pure ()

/-- Only a stripper of one's own can fail for the configuration. -/
theorem throws_strip (p : Plan) (h : ∀ strip, p.collaborators.stripper ≠ some (.custom strip)) :
    Throws Stop.OfWork p.strip := by
  unfold strip
  refine Throws.get.bind fun s => (throws_perform (Staging.throws_allowWriting _)).bind fun _ => ?_
  cases hstripper : p.collaborators.stripper with
  | none => exact throws_log _ _ _
  | some stripper =>
    refine (throws_modify _).bind fun _ => ?_
    cases stripper with
    | tool tool => exact throws_runStripTool p.launcher tool _
    | custom strip => exact absurd hstripper (h strip)

theorem throws_prepare (p : Plan) : Throws Stop.OfWork p.prepare := by
  refine Throws.get.bind fun s => (throws_perform (Staging.throws_attempt _ _ _)).bind fun _ => ?_
  refine (throws_perform (Staging.throws_attempt _ _ _)).bind fun _ => ?_
  refine (throws_perform (Staging.throws_allowWriting _)).bind fun _ => ?_
  refine (throws_perform (Staging.throws_recreate _)).bind fun _ => ?_
  refine Throws.bind (.forM (fun source => ?_) _) fun _ => ?_
  · exact throws_perform (Staging.throws_attempt _ _ _)
  · split
    · exact throws_ask _
    · exact .pure ()

theorem throws_report (p : Plan) (d : Diagnostic) : Throws Stop.OfWork (p.report d) := by
  unfold report
  split
  · exact (throws_modify _).bind fun _ => throws_ask _
  · exact (throws_modify _).bind fun _ => throws_liftSession _

theorem throws_watch (p : Plan) (file : Path) (look : Diagnostic.Tail.Look) (w : Watch) :
    Throws Stop.OfWork (p.watch file look w) := by
  rw [watch_eq]
  refine (throws_liftSession _).bind fun content => ?_
  refine Throws.bind (.forM (fun e => ?_) _) fun _ => .pure _
  unfold Diagnostic.Event.tell
  split
  · exact throws_report p _
  · exact throws_liftSession _

theorem throws_onLine (isError : Bool) (line : Text) (w : Watch) :
    Throws Stop.OfWork (onLine isError line w) := by
  unfold onLine
  split
  · exact (throws_log _ _ _).bind fun _ => .pure _
  · exact (throws_log _ _ _).bind fun _ => .pure _

theorem throws_runProcess (p : Plan) (here : Path) (spec : ProcessSpec) :
    Throws Stop.OfWork (p.runProcess here spec) := by
  refine (throws_perform (Staging.throws_attempt _ _ _)).bind fun _ => ?_
  refine (throws_perform (Staging.throws_attempt _ _ _)).bind fun _ => ?_
  refine throws_checkCancelled.bind fun _ => (throws_log _ _ _).bind fun _ => ?_
  refine (throws_launch throws_onLine (throws_watch p _ _) _ _ _).bind fun ended => ?_
  obtain ⟨result, w⟩ := ended
  refine (throws_watch p _ _ w).bind fun w => ?_
  split
  · exact throws_fail (by simp [Failure.OfWork])
  · exact throws_log _ _ _
  · exact throws_fail (by simp [Failure.OfWork])

theorem throws_runGenerator (p : Plan) (arguments : List Text) (builder : Option NativeBuilder) :
    Throws Stop.OfWork (p.runGenerator arguments builder) := by
  refine Throws.get.bind fun s => ?_
  cases builder with
  | none => exact throws_runProcess p _ _
  | some builder => exact (throws_ask _).bind fun spec => throws_runProcess p _ spec

theorem throws_writeExtraTypes (p : Plan) : Throws Stop.OfWork p.writeExtraTypes := by
  refine (throws_askIfThere _).bind fun provided => ?_
  dsimp only
  split
  · exact .pure _
  · refine (throws_perform (Staging.throws_attempt _ _ _)).bind fun _ => Throws.get.bind fun s => ?_
    refine (throws_liftSession _).bind fun result => ?_
    cases result with
    | ok => exact (throws_log _ _ _).bind fun _ => .pure _
    | error => exact throws_fail (by simp [Failure.OfWork, Failure.files])

section Accepted

variable {p : Plan} {defines : List Text} (hdefines : p.options.defines = .ok defines)
include hdefines

/-- The command line that generates is there for every plan with definitions. -/
theorem generateArguments_of_defines (fs : FileSystem) (managed : Path) :
    ∃ arguments, p.generateArguments fs managed = .ok arguments := by
  obtain ⟨profile, hprofile⟩ := profileName_of_defines hdefines
  exact ⟨_, p.generateArguments_eq hprofile fs managed⟩

/-- So is the command line that links, if there is a native builder. -/
theorem compileLinkArguments_of_defines {builder : NativeBuilder}
    (hbuilder : p.collaborators.nativeBuilder = some builder) (source : Path) (s : State) :
    ∃ arguments after, exec (p.compileLinkArguments source) s = (.ok arguments, after) := by
  obtain ⟨profile, hprofile⟩ := profileName_of_defines hdefines
  obtain ⟨generated, after, hlink⟩ :=
    exec_compileLinkArguments hbuilder hdefines hprofile source s
  exact ⟨_, after, hlink⟩

theorem throws_generate : Throws Stop.OfWork p.generate := by
  refine Throws.get.bind fun s => ?_
  obtain ⟨arguments, harguments⟩ :=
    generateArguments_of_defines hdefines s.session.files (p.managed s.session.here)
  rw [harguments]
  refine (throws_succeed arguments).bind fun arguments => ?_
  refine throws_checkCancelled.bind fun _ => (throws_writeExtraTypes p).bind fun types => ?_
  refine (throws_runGenerator p _ none).bind fun _ => ?_
  exact (throws_perform (Staging.throws_stamp _ _)).bind fun _ => .pure ()

theorem throws_compileLink {builder : NativeBuilder}
    (hbuilder : p.collaborators.nativeBuilder = some builder) (source : Path) :
    Throws Stop.OfWork (p.compileLink builder source) := by
  refine Throws.bind ?_ fun _ => ?_
  · refine (throws_ask _).bind fun dir => ?_
    split
    · exact .pure ()
    · exact (throws_perform (Staging.throws_attempt _ _ _)).bind fun _ =>
        throws_perform (Staging.throws_allowWriting _)
  refine (throws_perform (Staging.throws_attempt _ _ _)).bind fun _ => ?_
  refine (throws_perform (Staging.throws_attempt _ _ _)).bind fun _ => ?_
  refine Throws.bind ?_ fun arguments => throws_runGenerator p arguments _
  intro s e final h
  obtain ⟨arguments, after, hlink⟩ := compileLinkArguments_of_defines hdefines hbuilder source s
  cases congrArg Prod.fst (hlink.symm.trans h)

end Accepted

theorem throws_stage (p : Plan) : Throws Stop.OfWork p.stage := by
  have hwhen : ∀ (c : Bool) (m k : BuildM Unit), Throws Stop.OfWork m → Throws Stop.OfWork k →
      Throws Stop.OfWork (if c = true then (do m; k) else k) := by
    intro c m k hm hk
    split
    · exact hm.bind fun _ => hk
    · exact hk
  refine Throws.get.bind fun s => Throws.get.bind fun s' => ?_
  refine hwhen _ _ _ (throws_perform (Staging.throws_copyTree _ _ _)) (Throws.get.bind fun _ => ?_)
  split
  · refine (throws_perform (Staging.throws_recreate _)).bind fun _ => ?_
    refine (throws_perform (Staging.throws_copyTree _ _ _)).bind fun _ => Throws.get.bind fun _ => ?_
    refine hwhen _ _ _ (throws_perform (Throws.get.bind fun _ => Staging.throws_copyMatching _ _ _))
      (Throws.get.bind fun _ => ?_)
    exact hwhen _ _ _ (throws_perform (Throws.get.bind fun _ => Staging.throws_copyMatching _ _ _))
      (throws_log _ _ _)
  · exact .pure ()

/-- Behind the first phase, no work fails for the configuration of a plan with definitions. -/
theorem throws_passAll {p : Plan} {defines : List Text} (hdefines : p.options.defines = .ok defines)
    (hstripper : ∀ strip, p.collaborators.stripper ≠ some (.custom strip)) (source : Path)
    {phases : List Phase} (h : .init ∉ phases) :
    Throws Stop.OfWork (p.passAll source phases) := by
  induction phases with
  | nil => exact .pure ()
  | cons phase phases ih =>
    rw [List.mem_cons, not_or] at h
    refine Throws.bind ((throws_enter p phase).bind fun _ => ?_) fun _ => ih h.2
    cases phase with
    | init => exact absurd rfl h.1
    | strip => exact throws_strip p hstripper
    | prepare => exact throws_prepare p
    | generate => exact throws_generate hdefines
    | compileLink =>
      simp only [work]
      split
      · next builder hbuilder => exact throws_compileLink hdefines hbuilder source
      · exact .pure ()
    | stage => exact throws_stage p
    | done => exact .pure ()

/-- The first phase looks at the plan alone, and changes nothing. -/
theorem exec_init (p : Plan) (s : State) :
    (exec p.init s).2 = s ∧
      ((exec p.init s).1 = .ok () → ∃ defines, p.options.defines = .ok defines) := by
  unfold init
  rw [exec_bind_ok (exec_get s)]
  dsimp only
  split
  · exact ⟨rfl, fun h => by cases h⟩
  · cases hdefines : p.options.defines with
    | error failure => exact ⟨rfl, fun h => by cases h⟩
    | ok defines => cases p.options.profileName <;> exact ⟨rfl, fun _ => ⟨defines, rfl⟩⟩

/-- Entering a phase changes nothing but the log, if the progress callback does not. -/
theorem loggedFrom_enter (p : Plan) (phase : Phase) {s after : State}
    (h : exec (p.enter phase) s = (.ok (), after))
    (hprogress : ∀ callback ∈ p.collaborators.progress, ∀ fs,
      (callback phase.progress fs).change fs = fs) :
    Session.LoggedFrom s.session after.session := by
  obtain ⟨_, checked, hcheck, hentered⟩ := of_exec_bind_ok h
  obtain ⟨-, rfl⟩ := of_exec_checkCancelled hcheck
  rw [exec_bind_ok (exec_modify _ checked), exec_bind_ok (exec_record _ _)] at hentered
  obtain ⟨_, logged, hlog, hentered⟩ := of_exec_bind_ok hentered
  have hsession : Session.LoggedFrom checked.session logged.session := by
    rw [← congrArg (fun r => r.2.session) hlog]
    exact Session.loggedFrom_log _ _ _ checked.session
  cases hcallback : p.collaborators.progress with
  | none =>
    rw [hcallback] at hentered
    obtain rfl := congrArg Prod.snd hentered
    exact hsession
  | some callback =>
    rw [hcallback] at hentered
    dsimp only at hentered
    rw [exec_tell] at hentered
    rw [← congrArg (fun r => r.2.session) hentered, exec_ask_session]
    refine hsession.trans ⟨?_, rfl⟩
    dsimp only
    rw [hprogress callback hcallback]
    exact .refl _ _

/-- Entering a phase launches nothing. -/
theorem not_launched_of_enter (p : Plan) (phase : Phase) {s after : State}
    (h : exec (p.enter phase) s = (.ok (), after)) :
    after.phase = phase ∧
      ∃ new, after.events = s.events ++ new ∧ ∀ spec files, .launched spec files ∉ new := by
  cases hs : s.cancelled with
  | true =>
    obtain ⟨session, hexec⟩ := exec_enter_of_cancelled p phase hs
    cases congrArg Prod.fst (hexec.symm.trans h)
  | false =>
    obtain ⟨entered, rest, hexec, hadded, hrest, -⟩ := exec_enter_of_not p phase hs
    obtain rfl : entered = after := congrArg Prod.snd (hexec.symm.trans h)
    refine ⟨?_, _, hadded.events, fun spec files hmem => ?_⟩
    · rw [hadded.phase, phaseAfter_eq, p.entered_of_enter phase hrest]
      rfl
    · obtain hmem | hmem := List.mem_append.mp hmem
      · obtain hmem | hmem := List.mem_cons.mp hmem
        · cases hmem
        · cases eq_announced_of_mem hmem
      · cases hrest _ hmem

/-- A plan that is refused for its configuration is refused before any work: the build is in its
first phase, has launched no process and has changed nothing but its log. Once the first phase has
accepted a plan, both command lines can be put together, whatever happens in between. -/
theorem refused_before_work (p : Plan) (s : State)
    (hstripper : ∀ strip, p.collaborators.stripper ≠ some (.custom strip))
    (hprogress : ∀ callback ∈ p.collaborators.progress, ∀ fs,
      (callback Phase.init.progress fs).change fs = fs) :
    (∀ failure after, exec p.run s = (.error (.failed failure), after) →
      failure.kind = .configuration →
        after.phase = .init ∧ (∀ spec files, .launched spec files ∉ happened p.run s) ∧
          Session.LoggedFrom s.session after.session) ∧
      ∀ ready, exec p.init s = (.ok (), ready) →
        (∀ fs managed, ∃ arguments, p.generateArguments fs managed = .ok arguments) ∧
          ∀ builder ∈ p.collaborators.nativeBuilder, ∀ source t, ∃ arguments after,
            exec (p.compileLinkArguments source) t = (.ok arguments, after) := by
  refine ⟨fun failure after hrun hkind => ?_, fun ready hinit => ?_⟩
  · have hphases : p.phases = .init :: p.phases.drop 1 := rfl
    have hrest : .init ∉ p.phases.drop 1 := by
      unfold phases
      split <;> decide
    unfold happened
    rw [hrun]
    rw [run_eq_passAll, hphases, passAll, pass, bind_assoc] at hrun
    cases henter : exec (p.enter .init) s with
    | mk entered between =>
      cases entered with
      | error e =>
        rw [exec_bind_error henter] at hrun
        have herror := throws_enter p .init s e between henter
        rw [Except.error.inj (congrArg Prod.fst hrun)] at herror
        exact absurd hkind herror
      | ok =>
        rw [exec_bind_ok henter] at hrun
        obtain ⟨hsame, haccepted⟩ := p.exec_init between
        cases hinit : exec p.init between with
        | mk accepted ready =>
          rw [hinit] at hsame haccepted
          obtain rfl : ready = between := hsame
          cases accepted with
          | error e =>
            have hwork : exec (p.work p.paths.cache .init) ready = (.error e, ready) := hinit
            rw [exec_bind_error hwork] at hrun
            obtain rfl := congrArg Prod.snd hrun
            obtain ⟨hphase, new, hevents, hnew⟩ := p.not_launched_of_enter .init henter
            refine ⟨hphase, ?_, p.loggedFrom_enter .init henter hprogress⟩
            rwa [hevents, List.drop_left]
          | ok =>
            have hwork : exec (p.work p.paths.cache .init) ready = (.ok (), ready) := hinit
            rw [exec_bind_ok hwork] at hrun
            obtain ⟨defines, hdefines⟩ := haccepted rfl
            exact absurd hkind
              (throws_passAll hdefines hstripper p.paths.cache hrest ready _ after hrun)
  · obtain ⟨-, haccepted⟩ := p.exec_init s
    rw [hinit] at haccepted
    obtain ⟨defines, hdefines⟩ := haccepted rfl
    exact ⟨generateArguments_of_defines hdefines, fun builder hbuilder =>
      compileLinkArguments_of_defines hdefines hbuilder⟩

/-- A plan whose temporary directory is its cache, in other letters. -/
def sharedFolderPlan : Plan where
  options := {}
  paths := { temp := utf8 "/work/Cache/", cache := utf8 "/work/x/../cache", staging := utf8 "/s" }
  generator := utf8 "/g"
  launcher := fun _ _ _ => {}
  collaborators :=
    { stripper := some (.tool (utf8 "/tool"))
      nativeBuilder := some (NativeLibrary.builder { library := utf8 "l.so" })
      progress := some fun _ _ => { value := () } }

/-- The same plan with a temporary directory of its own. -/
def separateFolderPlan : Plan :=
  { sharedFolderPlan with paths := { sharedFolderPlan.paths with temp := utf8 "/work/temp" } }

/-- The one plan is refused, and the other one is not. -/
theorem refused_before_work_of_sharedFolder :
    ((exec sharedFolderPlan.run { session := {} }).2.phase = .init ∧
        (∀ spec files, .launched spec files ∉ happened sharedFolderPlan.run { session := {} }) ∧
        Session.LoggedFrom {} (exec sharedFolderPlan.run { session := {} }).2.session) ∧
      ∀ fs managed, ∃ arguments, separateFolderPlan.generateArguments fs managed = .ok arguments := by
  have hstripper : ∀ strip, sharedFolderPlan.collaborators.stripper ≠ some (.custom strip) := by
    intro strip h
    cases h
  have hprogress : ∀ callback ∈ sharedFolderPlan.collaborators.progress, ∀ fs,
      (callback Phase.init.progress fs).change fs = fs := by
    intro callback h fs
    obtain rfl := Option.some.inj h
    rfl
  have hrefused : (exec sharedFolderPlan.run { session := {} }).1 = .error (.failed (.configuration
      (utf8 "the temp folder cannot be the same as the build cache directory")
      (utf8 "/work/Cache/"))) := by rfl
  have haccepted : (exec separateFolderPlan.init { session := {} }).1 = .ok () := by rfl
  obtain ⟨hshared, -⟩ :=
    sharedFolderPlan.refused_before_work { session := {} } hstripper hprogress
  obtain ⟨-, hseparate⟩ :=
    separateFolderPlan.refused_before_work { session := {} } hstripper hprogress
  exact ⟨hshared _ _ (Prod.ext hrefused rfl) rfl, (hseparate _ (Prod.ext haccepted rfl)).1⟩

end Plan

end NativeBuild
