import NativeBuild.Build.Pipeline
import NativeBuild.Proofs.Build.Trace
import NativeBuild.Proofs.Diagnostic.Sink

/-!
# What the work of a phase adds to the record

Inside a phase no other phase is entered. The work of every phase but stripping looks whether the
build has been cancelled after it has asked the last collaborator, and right before it starts the
generator; so it starts no process in a cancelled build.
-/
namespace NativeBuild

namespace Build

/-- No phase is entered or announced. -/
def Inside : Condition
  | _, .entered _ | _, .announced _ => False
  | _, _ => True

/-- No process starts in a cancelled build. -/
def Prompt : Condition
  | c, .launched _ _ => c = false
  | _, _ => True

/-- No phase is entered or announced, and no process starts in a cancelled build. -/
def Working : Condition := fun c e => Inside c e ∧ Prompt c e

theorem Adds.inside {α : Type} {m : BuildM α} (h : Adds Working m) : Adds Inside m :=
  h.mono fun _ _ => And.left

theorem Adds.prompt {α : Type} {m : BuildM α} (h : Adds Working m) : Adds Prompt m :=
  h.mono fun _ _ => And.right

theorem working_cancelled (c : Bool) : Working c .cancelled := ⟨trivial, trivial⟩

theorem inside_cancelled (c : Bool) : Inside c .cancelled := trivial

end Build

namespace Plan

open Build

theorem exec_checkCancelled_of_not {s : State} (h : s.cancelled = false) :
    exec checkCancelled s = (.ok (), s) := by
  unfold checkCancelled
  rw [exec_bind_ok (exec_get s)]
  simp [h]

theorem exec_checkCancelled_of_cancelled {s : State} (h : s.cancelled = true) :
    ∃ session, exec checkCancelled s = (.error (.failed .cancelled), { s with session }) := by
  obtain ⟨session, hlog⟩ := exec_log .info (utf8 "invoker")
    (utf8 "Build cancelled before phase " ++ s.phase.name ++ utf8 " completed") s
  refine ⟨session, ?_⟩
  unfold checkCancelled
  rw [exec_bind_ok (exec_get s)]
  simp only [h, if_true]
  rw [exec_bind_ok hlog, h]
  rfl

/-- A build that goes on has not been cancelled. -/
theorem of_exec_checkCancelled {s after : State} (h : exec checkCancelled s = (.ok (), after)) :
    s.cancelled = false ∧ after = s := by
  cases hs : s.cancelled with
  | false =>
    rw [exec_checkCancelled_of_not hs] at h
    exact ⟨rfl, (congrArg Prod.snd h).symm⟩
  | true =>
    obtain ⟨session, heq⟩ := exec_checkCancelled_of_cancelled hs
    rw [heq] at h
    cases congrArg Prod.fst h

section Adds

variable {E : Condition}

theorem adds_checkCancelled : Adds E checkCancelled := by
  refine Adds.get.bind fun s => ?_
  split
  · exact (Adds.log _ _ _).bind fun _ => .fail _
  · exact .pure ()

theorem adds_onLine (isError : Bool) (line : Text) (w : Watch) :
    Adds E (onLine isError line w) := by
  unfold onLine
  split
  · exact (Adds.log _ _ _).bind fun _ => .pure _
  · exact (Adds.log _ _ _).bind fun _ => .pure _

theorem adds_report (hreported : ∀ c d, E c (.reported d)) (hcancel : ∀ c, E c .cancelled)
    (p : Plan) (d : Diagnostic) : Adds E (p.report d) := by
  unfold report
  split
  · exact .tell hcancel (hreported · d) rfl (fun _ => rfl) _
  · exact Adds.bind (fun s => .record (hreported _ d) rfl rfl) fun _ => .liftSession _

/-- A look at the diagnostics file: what it finds is told event by event, and the diagnostics among
it are kept. -/
theorem watch_eq (p : Plan) (file : Path) (look : Diagnostic.Tail.Look) (w : Watch) :
    p.watch file look w = (do
      let content ← liftSession (Diagnostic.contentOf file)
      forM (look content w.tail).2 (Diagnostic.Event.tell file p.report)
      return { w with
        tail := (look content w.tail).1
        diagnostics := w.diagnostics ++ Diagnostic.taken (look content w.tail).2 }) := by
  simp [watch, Diagnostic.Tail.run_lookAt_collecting]

theorem adds_watch (hreported : ∀ c d, E c (.reported d)) (hcancel : ∀ c, E c .cancelled)
    (p : Plan) (file : Path) (look : Diagnostic.Tail.Look) (w : Watch) :
    Adds E (p.watch file look w) := by
  rw [watch_eq]
  refine (Adds.liftSession _).bind fun content => ?_
  refine Adds.bind (.forM (fun e => ?_) _) fun _ => .pure _
  unfold Diagnostic.Event.tell
  split
  · exact adds_report hreported hcancel p _
  · exact .liftSession _

theorem adds_runProcess (p : Plan) (here : Path) (spec : ProcessSpec) :
    Adds Working (p.runProcess here spec) := by
  refine (Adds.perform _).bind fun _ => (Adds.perform _).bind fun _ start => ?_
  -- The check, the log and the launch go together: the build is not cancelled by then.
  refine (adds_checkCancelled start).bind fun _ after hcheck => ?_
  obtain ⟨hstart, rfl⟩ := of_exec_checkCancelled hcheck
  refine (Adds.log _ _ _ after).bind fun _ ready hlog => ?_
  obtain ⟨session, heq⟩ := exec_log .info (utf8 "invoker")
    (utf8 "Invoking il2cpp with arguments: " ++ Text.join (utf8 " ") spec.arguments) after
  obtain rfl : { after with session } = ready := congrArg Prod.snd (heq.symm.trans hlog)
  have hwatch := @adds_watch Working (fun _ _ => ⟨trivial, trivial⟩) working_cancelled p
  refine AddsFrom.bind (.launch working_cancelled ⟨trivial, hstart⟩ adds_onLine (hwatch _ _))
    fun ended final _ => ?_
  obtain ⟨result, w⟩ := ended
  refine (hwatch _ _ w).bind (fun w => ?_) final
  split
  · exact .fail _
  · exact .log _ _ _
  · exact .fail _

theorem adds_runGenerator (p : Plan) (arguments : List Text) (builder : Option NativeBuilder) :
    Adds Working (p.runGenerator arguments builder) := by
  refine Adds.get.bind fun s => ?_
  cases builder with
  | none => exact adds_runProcess p _ _
  | some builder => exact (Adds.ask working_cancelled _).bind fun spec => adds_runProcess p _ spec

theorem adds_writeExtraTypes (hcancel : ∀ c, E c .cancelled) (p : Plan) :
    Adds E p.writeExtraTypes := by
  refine (Adds.askIfThere hcancel _).bind fun provided => ?_
  dsimp only
  split
  · exact .pure _
  · refine (Adds.perform _).bind fun _ => Adds.get.bind fun s => ?_
    refine (Adds.liftSession _).bind fun result => ?_
    cases result with
    | ok => exact (Adds.log _ _ _).bind fun _ => .pure _
    | error => exact .fail _

theorem adds_compileLinkArguments (p : Plan) (source : Path) :
    Adds Working (p.compileLinkArguments source) := by
  unfold compileLinkArguments
  cases p.collaborators.nativeBuilder with
  | none => exact .fail _
  | some builder =>
    refine (Adds.succeed _).bind fun _ => (Adds.succeed _).bind fun _ => ?_
    refine (Adds.ask working_cancelled _).bind fun _ => ?_
    refine (Adds.ask working_cancelled _).bind fun _ => ?_
    exact Adds.get.bind fun _ => .pure _

theorem adds_init (p : Plan) : Adds E p.init := by
  refine Adds.get.bind fun s => ?_
  split
  · exact (Adds.fail _).bind fun _ =>
      (Adds.succeed _).bind fun _ => (Adds.succeed _).bind fun _ => .pure _
  · exact (Adds.succeed _).bind fun _ => (Adds.succeed _).bind fun _ => .pure _

theorem adds_prepare (p : Plan) : Adds Working p.prepare := by
  refine Adds.get.bind fun s => (Adds.perform _).bind fun _ => (Adds.perform _).bind fun _ => ?_
  refine (Adds.perform _).bind fun _ => (Adds.perform _).bind fun _ => ?_
  refine Adds.bind (.forM (fun source => .perform _) p.options.additionalSources) fun _ => ?_
  split
  · exact .ask working_cancelled _
  · exact .pure ()

theorem adds_generate (p : Plan) : Adds Working p.generate := by
  refine Adds.get.bind fun s => (Adds.succeed _).bind fun arguments => ?_
  refine adds_checkCancelled.bind fun _ => ?_
  refine (adds_writeExtraTypes working_cancelled p).bind fun types => ?_
  refine (adds_runGenerator p _ none).bind fun _ => ?_
  exact (Adds.perform _).bind fun _ => .pure ()

theorem adds_compileLink (p : Plan) (builder : NativeBuilder) (source : Path) :
    Adds Working (p.compileLink builder source) := by
  have hcache : Adds Working (prepareNativeCache builder) := by
    refine (Adds.ask working_cancelled _).bind fun dir => ?_
    split
    · exact .pure ()
    · exact (Adds.perform _).bind fun _ => .perform _
  refine hcache.bind fun _ => (Adds.perform _).bind fun _ => (Adds.perform _).bind fun _ => ?_
  exact (adds_compileLinkArguments p source).bind fun arguments => adds_runGenerator p arguments _

theorem adds_stage (p : Plan) : Adds E p.stage := by
  have hwhen : ∀ (c : Bool) (m k : BuildM Unit), Adds E m → Adds E k →
      Adds E (if c = true then (do m; k) else k) := by
    intro c m k hm hk
    split
    · exact hm.bind fun _ => hk
    · exact hk
  refine Adds.get.bind fun s => Adds.get.bind fun s' => ?_
  refine hwhen _ _ _ (.perform _) (Adds.get.bind fun _ => ?_)
  split
  · refine (Adds.perform _).bind fun _ => (Adds.perform _).bind fun _ => Adds.get.bind fun _ => ?_
    refine hwhen _ _ _ (.perform _) (Adds.get.bind fun _ => ?_)
    exact hwhen _ _ _ (.perform _) (.log _ _ _)
  · exact .pure ()

end Adds

section Strip

variable {E : Condition}

theorem adds_writePreserved (managed : Path) (types : List Text) :
    Adds E (writePreserved managed types) := by
  unfold writePreserved
  split
  · exact .pure []
  · refine (Adds.liftSession _).bind fun result => ?_
    cases result with
    | ok => exact .pure _
    | error => exact .fail _

theorem adds_onStripLine (isError : Bool) (line : Text) (errors : List Text) :
    Adds E (onStripLine isError line errors) := by
  unfold onStripLine
  dsimp only
  split
  · exact (Adds.log _ _ _).bind fun _ => .pure _
  · exact (Adds.log _ _ _).bind fun _ => .pure _

theorem adds_stripProcess (tool : Path) (request : StripRequest)
    (htypes : Adds E (askIfThere request.usedTypes))
    (hlinker : Adds E (askIfThere request.linker)) :
    Adds E (stripProcess tool request) := by
  refine htypes.bind fun types => (adds_writePreserved _ _).bind fun preserved => ?_
  exact hlinker.bind fun linker => (Adds.log _ _ _).bind fun _ => .pure _

/-- What follows the end of the stripping tool. -/
theorem adds_stripResult (spec : ProcessSpec) (errors : List Text) (result : Except Text Int) :
    Adds E (match result with
      | .error message => fail { kind := .stripFailure, message, path := spec.executable }
      | .ok 0 => return ()
      | .ok code =>
        fail
          { kind := .stripFailure
            message := utf8 "stripping tool exited with code " ++ Text.ofInt code
            path := spec.executable
            exitCode := some code
            diagnostics := errors }) := by
  split
  · exact .fail _
  · exact .pure ()
  · exact .fail _

theorem adds_runStripProcess (launcher : Launcher) (spec : ProcessSpec) :
    Adds Inside (runStripProcess launcher spec) := by
  intro s
  refine AddsFrom.bind (.launch inside_cancelled trivial adds_onStripLine fun w => .pure w)
    fun ended after _ => ?_
  exact adds_stripResult spec ended.2 ended.1 after

theorem adds_runStripTool (launcher : Launcher) (tool : Path) (request : StripRequest) :
    Adds Inside (runStripTool launcher tool request) := by
  unfold runStripTool
  split
  · exact .log _ _ _
  · exact (adds_stripProcess tool request (.askIfThere inside_cancelled _)
      (.askIfThere inside_cancelled _)).bind fun spec => adds_runStripProcess launcher spec

/-- Without a tool, nothing is stripped. -/
theorem adds_runStripTool_nil (launcher : Launcher) (request : StripRequest) :
    Adds E (runStripTool launcher [] request) := by
  unfold runStripTool
  rw [if_pos rfl]
  exact .log _ _ _

/-- Whatever the stripper is, no other phase is entered while it works. -/
theorem adds_strip (p : Plan) : Adds Inside p.strip := by
  refine Adds.get.bind fun s => (Adds.perform _).bind fun _ => ?_
  cases p.collaborators.stripper with
  | none => exact .log _ _ _
  | some stripper =>
    refine Adds.bind (fun s => .record trivial rfl rfl) fun _ => ?_
    cases stripper with
    | tool tool => exact adds_runStripTool p.launcher tool _
    | custom strip => exact (Adds.ask inside_cancelled _).bind fun result => .succeed result

/-- A stripper that is no tool starts no process. -/
theorem adds_strip_of_not_tool (p : Plan)
    (h : ∀ tool, p.collaborators.stripper = some (.tool tool) → tool = []) :
    Adds Working p.strip := by
  unfold strip
  refine Adds.get.bind fun s => (Adds.perform _).bind fun _ => ?_
  cases hstripper : p.collaborators.stripper with
  | none => exact .log _ _ _
  | some stripper =>
    refine Adds.bind (fun s => .record ⟨trivial, trivial⟩ rfl rfl) fun _ => ?_
    cases stripper with
    | tool tool =>
      obtain rfl := h tool hstripper
      exact adds_runStripTool_nil p.launcher _
    | custom strip => exact (Adds.ask working_cancelled _).bind fun result => .succeed result

end Strip

section Enter

/-- What the progress callback is told of a phase, if there is one. -/
def announcement (p : Plan) (phase : Phase) : List Event :=
  if p.collaborators.progress.isSome then [.announced phase.progress] else []

theorem eq_announced_of_mem {p : Plan} {phase : Phase} {e : Event}
    (h : e ∈ p.announcement phase) : e = .announced phase.progress := by
  unfold announcement at h
  split at h
  · simpa using h
  · simp at h

theorem exec_enter_of_cancelled (p : Plan) (phase : Phase) {s : State} (h : s.cancelled = true) :
    ∃ session, exec (p.enter phase) s = (.error (.failed .cancelled), { s with session }) := by
  obtain ⟨session, hcheck⟩ := exec_checkCancelled_of_cancelled h
  exact ⟨session, exec_bind_error hcheck⟩

/-- Entering a phase tells the progress callback, which may cancel the build. -/
theorem exec_enter_of_not (p : Plan) (phase : Phase) {s : State} (h : s.cancelled = false) :
    ∃ after rest, exec (p.enter phase) s = (.ok (), after) ∧
      Added Anything s after (.entered phase :: p.announcement phase ++ rest) ∧
      (∀ e ∈ rest, e = .cancelled) ∧
      (∀ callback ∈ p.collaborators.progress,
        (∀ fs, (callback phase.progress fs).cancels = true) → .cancelled ∈ rest) ∧
      ((∀ callback ∈ p.collaborators.progress, ∀ fs,
        (callback phase.progress fs).cancels = false) → rest = []) := by
  obtain ⟨session, hlog⟩ := exec_log .debug (utf8 "invoker") (utf8 "Entering phase " ++ phase.name)
    { s with phase, events := s.events ++ [.entered phase] }
  have hentered : Added Anything s
      { s with phase, events := s.events ++ [.entered phase], session } [.entered phase] :=
    ⟨rfl, by simp [Event.cancels], rfl, trivial, trivial⟩
  unfold enter
  rw [exec_bind_ok (exec_checkCancelled_of_not h), exec_bind_ok (exec_modify _ s),
    exec_bind_ok (exec_record _ _), exec_bind_ok hlog]
  cases hprogress : p.collaborators.progress with
  | none =>
    refine ⟨_, [], rfl, ?_, by simp, by simp, fun _ => rfl⟩
    simpa [announcement, hprogress] using hentered
  | some callback =>
    dsimp only
    rw [exec_tell]
    obtain ⟨after, rest, hask, hadded, hquiet⟩ := exec_ask (callback phase.progress)
      { s with
        phase, session,
        events := s.events ++ [.entered phase] ++ [.announced phase.progress] }
    have hannounced : Added Anything
        { s with phase, events := s.events ++ [.entered phase], session }
        { s with
          phase, session,
          events := s.events ++ [.entered phase] ++ [.announced phase.progress] }
        [.announced phase.progress] :=
      ⟨rfl, by simp [Event.cancels], rfl, trivial, trivial⟩
    refine ⟨after, rest, hask, ?_, cancelled_of_meets hadded.meets, ?_,
      fun hnever => hquiet (hnever callback rfl _)⟩
    · have hall := hentered.trans (hannounced.trans (hadded.mono fun _ _ _ => trivial))
      simpa [announcement, hprogress] using hall
    · rintro _ ⟨⟩ hcancels
      refine hadded.cancelled_mem h ?_
      have hafter := cancelled_exec_ask (callback phase.progress)
        { s with
          phase, session,
          events := s.events ++ [.entered phase] ++ [.announced phase.progress] }
      rw [hask, hcancels, Bool.or_true] at hafter
      exact hafter

/-- A phase that has been entered was entered in a build that was not cancelled. -/
theorem of_exec_enter {p : Plan} {phase : Phase} {s after : State}
    (h : exec (p.enter phase) s = (.ok (), after)) :
    s.cancelled = false ∧ ∃ rest,
      Added Anything s after (.entered phase :: p.announcement phase ++ rest) ∧
      ((∀ callback ∈ p.collaborators.progress, ∀ fs,
        (callback phase.progress fs).cancels = false) → rest = []) := by
  cases hs : s.cancelled with
  | true =>
    obtain ⟨session, herror⟩ := exec_enter_of_cancelled p phase hs
    cases congrArg Prod.fst (herror.symm.trans h)
  | false =>
    obtain ⟨entered, rest, hok, hadded, -, -, hrest⟩ := exec_enter_of_not p phase hs
    obtain rfl : entered = after := congrArg Prod.snd (hok.symm.trans h)
    exact ⟨rfl, rest, hadded, hrest⟩

/-- A phase is entered only in a build that is not cancelled. -/
theorem adds_enter_of {E : Condition} (p : Plan) (phase : Phase)
    (hentered : E false (.entered phase)) (hannounced : ∀ c, E c (.announced phase.progress))
    (hcancelled : ∀ c, E c .cancelled) : Adds E (p.enter phase) := by
  intro s
  cases hs : s.cancelled with
  | true =>
    obtain ⟨session, hexec⟩ := exec_enter_of_cancelled p phase hs
    refine ⟨[], ?_⟩
    rw [hexec]
    exact ⟨by simp, by simp, rfl, trivial⟩
  | false =>
    obtain ⟨after, rest, hexec, hadded, hrest, -⟩ := exec_enter_of_not p phase hs
    refine ⟨.entered phase :: p.announcement phase ++ rest, ?_⟩
    rw [hexec]
    refine hadded.of_meets ⟨hs ▸ hentered, .of_forall (fun e he c => ?_) _⟩
    obtain he | he := List.mem_append.mp he
    · obtain rfl := eq_announced_of_mem he
      exact hannounced c
    · obtain rfl := hrest e he
      exact hcancelled c

theorem adds_enter (p : Plan) (phase : Phase) : Adds Prompt (p.enter phase) :=
  adds_enter_of p phase trivial (fun _ => trivial) fun _ => trivial

end Enter

end Plan

end NativeBuild
