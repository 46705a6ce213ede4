import NativeBuild.Proofs.Build.Order

/-!
# Processes of a cancelled build

The generator never starts in a cancelled build. The stripping tool does, in one case: the build
looks whether it has been cancelled when it enters the phase `strip`, and not again before it starts
the tool. Between the two the progress callback, the registry of types and the linker's platform are
asked, and each of them may cancel the build.
-/
namespace NativeBuild

namespace Build

/-- The process that an event starts, if the build is cancelled by then. -/
def Event.lateLaunch (c : Bool) : Event → List ProcessSpec
  | .launched spec _ => if c then [spec] else []
  | _ => []

/-- The processes that start in a cancelled build. -/
def lateLaunches : Bool → List Event → List ProcessSpec
  | _, [] => []
  | c, e :: es => e.lateLaunch c ++ lateLaunches (c || e.cancels) es

theorem lateLaunches_append (c : Bool) (es fs : List Event) :
    lateLaunches c (es ++ fs) = lateLaunches c es ++ lateLaunches (cancelledAfter c es) fs := by
  induction es generalizing c with
  | nil => simp [lateLaunches]
  | cons e es ih => simp [lateLaunches, ih]

theorem lateLaunches_of_prompt {c : Bool} {es : List Event} (h : Meets Prompt c es) :
    lateLaunches c es = [] := by
  induction es generalizing c with
  | nil => rfl
  | cons e es ih =>
    have he : e.lateLaunch c = [] := by
      cases e with
      | launched spec files =>
        have hc : c = false := h.1
        simp [Event.lateLaunch, hc]
      | _ => rfl
    rw [lateLaunches, he, ih h.2]
    rfl

/-- The processes that a step starts in a cancelled build. -/
def late {α : Type} (m : BuildM α) (s : State) : List ProcessSpec :=
  lateLaunches s.cancelled (happened m s)

section Late

variable {α β : Type} {E F : Condition} {m : BuildM α} {f : α → BuildM β} {s after : State}

theorem late_of_prompt (h : AddsFrom Prompt m s) : late m s = [] :=
  lateLaunches_of_prompt h.happened.meets

theorem late_bind_error {e : Stop} (hm : exec m s = (.error e, after)) :
    late (m >>= f) s = late m s := by
  unfold late happened
  rw [exec_bind_error hm, hm]

theorem late_bind_ok {a : α} (hm : exec m s = (.ok a, after)) (hadds : AddsFrom E m s)
    (hrest : AddsFrom F (f a) after) : late (m >>= f) s = late m s ++ late (f a) after := by
  have hfirst := hadds.happened
  have hsecond := hrest.happened
  rw [hm] at hfirst
  have hall : happened (m >>= f) s = happened m s ++ happened (f a) after := by
    unfold happened at hsecond ⊢
    rw [exec_bind_ok hm, hsecond.events, hfirst.events]
    simp [happened]
  unfold late
  rw [hall, lateLaunches_append, hfirst.cancelled]

theorem late_bind_of_prompt (hadds : Adds E m) (hf : ∀ a, Adds Prompt (f a)) :
    late (m >>= f) s = late m s := by
  cases hm : exec m s with
  | mk result after =>
    cases result with
    | error e => exact late_bind_error hm
    | ok a =>
      rw [late_bind_ok hm (hadds s) (hf a after), late_of_prompt (hf a after), List.append_nil]

/-- A launch starts its process late if the build is cancelled at its beginning. -/
theorem late_launch {σ : Type} {launcher : Launcher} {spec : ProcessSpec}
    {onLine : Bool → Text → σ → BuildM σ} {onPoll : σ → BuildM σ} {w : σ}
    (hline : ∀ isError text w, Adds Prompt (onLine isError text w))
    (hpoll : ∀ w, Adds Prompt (onPoll w)) (s : State) :
    late (launch launcher spec onLine onPoll w) s = if s.cancelled then [spec] else [] := by
  obtain ⟨rest, hrest⟩ :=
    exec_launch (fun _ => trivial) launcher spec w s hline hpoll
  have hhappened : happened (launch launcher spec onLine onPoll w) s =
      .launched spec s.session.files :: rest := by
    unfold happened
    rw [hrest.events]
    simp
  have hquiet : lateLaunches s.cancelled rest = [] := lateLaunches_of_prompt hrest.meets
  unfold late
  rw [hhappened, lateLaunches]
  simp [Event.lateLaunch, Event.cancels, hquiet]

end Late

end Build

namespace Plan

open Build

/-- What the phase `strip` does before its tool starts: the process that is about to start. -/
def prepareStripTool (p : Plan) (tool : Path) : BuildM ProcessSpec := do
  let managed := p.managed (← get).session.here
  Build.perform (Staging.allowWriting managed)
  Build.record (.stripping (p.stripRequest managed))
  Build.stripProcess tool (p.stripRequest managed)

/-- A full build up to the start of its stripping tool. -/
def upToStripTool (p : Plan) (tool : Path) : BuildM ProcessSpec := do
  p.enter .init
  p.init
  p.enter .strip
  p.prepareStripTool tool

/-- The process of the stripping tool, if the build has been cancelled by the time it starts. The
build was not cancelled when it entered the phase `strip`, or it would have ended there. -/
def lateTool (p : Plan) (s : State) : Option ProcessSpec :=
  match p.collaborators.stripper with
  | some (.tool tool) =>
    if tool = [] then none
    else match exec (p.upToStripTool tool) s with
      | (.ok spec, after) => if after.cancelled then some spec else none
      | (.error _, _) => none
  | _ => none

theorem adds_prepareStripTool {E : Condition} (p : Plan) (tool : Path)
    (hstripping : ∀ c request, E c (.stripping request))
    (htypes : Adds E (askIfThere p.collaborators.usedTypes))
    (hlinker : Adds E (askIfThere p.collaborators.linker)) : Adds E (p.prepareStripTool tool) := by
  refine Adds.get.bind fun s => (Adds.perform _).bind fun _ => ?_
  refine Adds.bind (fun s => .record (hstripping _ _) rfl rfl) fun _ => ?_
  exact adds_stripProcess tool _ htypes hlinker

theorem adds_upToStripTool (p : Plan) (tool : Path) : Adds Prompt (p.upToStripTool tool) := by
  refine (adds_enter p .init).bind fun _ => (adds_init p).bind fun _ => ?_
  refine (adds_enter p .strip).bind fun _ => ?_
  exact adds_prepareStripTool p tool (fun _ _ => trivial) (.askIfThere (fun _ => trivial) _)
    (.askIfThere (fun _ => trivial) _)

/-- Only in the phase `strip` may a process start late. -/
theorem adds_passAll (p : Plan) (source : Path) {phases : List Phase} (h : .strip ∉ phases) :
    Adds Prompt (p.passAll source phases) := by
  induction phases with
  | nil => exact .pure ()
  | cons phase phases ih =>
    rw [List.mem_cons, not_or] at h
    refine Adds.bind ?_ fun _ => ih h.2
    exact (adds_enter p phase).bind fun _ => (adds_work_of_ne_strip p source (Ne.symm h.1)).prompt

/-- A full build up to the phase `strip`, this phase, and the rest. -/
theorem run_eq (p : Plan) : ∃ rest, Adds Prompt rest ∧
    p.run = (do p.enter .init; p.init; p.enter .strip; p.strip; rest) := by
  refine ⟨p.passAll p.paths.cache (p.phases.drop 2), adds_passAll p _ ?_, ?_⟩
  · unfold phases
    split <;> decide
  · have hphases : p.phases = .init :: .strip :: p.phases.drop 2 := rfl
    rw [run_eq_passAll, hphases]
    simp [passAll, pass, work, bind_assoc]

theorem run_eq_of_tool (p : Plan) {tool : Path} (htool : tool ≠ [])
    (hstripper : p.collaborators.stripper = some (.tool tool)) : ∃ rest, Adds Prompt rest ∧
    p.run = (do
      let spec ← p.upToStripTool tool
      runStripProcess p.launcher spec
      rest) := by
  obtain ⟨rest, hrest, hrun⟩ := run_eq p
  refine ⟨rest, hrest, ?_⟩
  rw [hrun]
  simp [upToStripTool, prepareStripTool, strip, Build.strip, runStripTool, htool, hstripper,
    bind_assoc]

theorem late_runStripProcess (launcher : Launcher) (spec : ProcessSpec) (s : State) :
    late (runStripProcess launcher spec) s = if s.cancelled then [spec] else [] := by
  unfold runStripProcess
  rw [late_bind_of_prompt (E := Inside)]
  · exact late_launch adds_onStripLine (fun w => .pure w) s
  · exact fun s => .launch inside_cancelled trivial adds_onStripLine fun w => .pure w
  · exact fun ended => adds_stripResult spec ended.2 ended.1

/-- The process that is about to start is the stripping tool. -/
theorem yields_upToStripTool (p : Plan) (tool : Path) :
    Yields (fun spec => spec.executable = tool) (p.upToStripTool tool) := by
  have hprocess : ∀ request, Yields (fun spec => spec.executable = tool)
      (stripProcess tool request) := by
    intro request
    exact .bind fun types => .bind fun preserved => .bind fun linker => .bind fun _ => .pure rfl
  have hprepare : Yields (fun spec => spec.executable = tool) (p.prepareStripTool tool) :=
    .bind fun s => .bind fun _ => .bind fun _ => hprocess _
  exact .bind fun _ => .bind fun _ => .bind fun _ => hprepare

/-- What starts late is the stripping tool. -/
theorem stripper_of_lateTool (p : Plan) {s : State} {spec : ProcessSpec}
    (h : p.lateTool s = some spec) : p.collaborators.stripper = some (.tool spec.executable) := by
  unfold lateTool at h
  split at h
  · next tool hstripper =>
    split at h
    · cases h
    · split at h
      · next started after hexec =>
        obtain ⟨-, hspec⟩ : after.cancelled = true ∧ started = spec := by simpa using h
        have htool : started.executable = tool := yields_upToStripTool p tool s started after hexec
        rw [← hspec, htool]
        exact hstripper
      · cases h
  · cases h

/-- With a stripping tool, only the tool may start late. -/
theorem late_run_of_tool (p : Plan) {tool : Path} (htool : tool ≠ [])
    (hstripper : p.collaborators.stripper = some (.tool tool)) (s : State) :
    late p.run s = (p.lateTool s).toList := by
  obtain ⟨rest, hrest, hrun⟩ := run_eq_of_tool p htool hstripper
  have hbefore := adds_upToStripTool p tool s
  rw [hrun]
  simp only [lateTool, hstripper, if_neg htool]
  cases hexec : exec (p.upToStripTool tool) s with
  | mk result after =>
    cases result with
    | error e => rw [late_bind_error hexec, late_of_prompt hbefore]; rfl
    | ok spec =>
      have hafter : Adds Anything (do runStripProcess p.launcher spec; rest) :=
        (adds_runStripProcess p.launcher spec).anything.bind fun _ => hrest.anything
      rw [late_bind_ok hexec hbefore (hafter after), late_of_prompt hbefore, List.nil_append,
        late_bind_of_prompt (adds_runStripProcess p.launcher spec) fun _ => hrest,
        late_runStripProcess]
      cases hcancelled : after.cancelled with
      | false => simp [hcancelled]
      | true => simp [hcancelled]

theorem adds_run_of_not_tool (p : Plan)
    (h : ∀ tool, p.collaborators.stripper = some (.tool tool) → tool = []) :
    Adds Prompt p.run := by
  obtain ⟨rest, hrest, hrun⟩ := run_eq p
  rw [hrun]
  refine (adds_enter p _).bind fun _ => (adds_init p).bind fun _ => ?_
  refine (adds_enter p _).bind fun _ => ?_
  exact (adds_strip_of_not_tool p h).prompt.bind fun _ => hrest

theorem adds_runCompileLink (p : Plan) (source : Path) : Adds Prompt (p.runCompileLink source) := by
  intro s
  by_cases h : Path.sameIgnoringCase s.session.here source p.paths.cache = true ∨
      p.collaborators.nativeBuilder = none
  · obtain ⟨e, hexec⟩ := p.exec_runCompileLink_of_refused source s h
    refine ⟨[], ?_⟩
    rw [hexec]
    exact .refl _ s
  · rw [not_or, Bool.not_eq_true] at h
    have hlink : Adds Prompt (p.passAll source linkPhases) := adds_passAll p source (by decide)
    unfold AddsFrom
    rw [p.runCompileLink_eq_passAll source s h.1 h.2]
    exact hlink s

/-- A phase is entered in a build that is not cancelled, and nobody else but the progress callback
can cancel it there. -/
theorem not_cancelled_of_enter (p : Plan) (phase : Phase) {s after : State}
    (h : exec (p.enter phase) s = (.ok (), after))
    (hprogress : ∀ callback ∈ p.collaborators.progress, ∀ fs,
      (callback phase.progress fs).cancels = false) : after.cancelled = false := by
  obtain ⟨hs, rest, hadded, hrest⟩ := of_exec_enter h
  have hsilent : Meets Silent s.cancelled (.entered phase :: p.announcement phase) := by
    refine .of_forall (fun e he c => ?_) _
    obtain rfl | he := List.mem_cons.mp he
    · rfl
    · obtain rfl := eq_announced_of_mem he
      rfl
  rw [hadded.cancelled, hrest hprogress, List.append_nil, cancelledAfter_of_silent hsilent, hs]

/-- If nobody cancels the build between its entering the phase `strip` and the start of the tool,
the tool does not start late. -/
theorem lateTool_eq_none (p : Plan) (s : State)
    (hprogress : ∀ callback ∈ p.collaborators.progress, ∀ fs,
      (callback Phase.strip.progress fs).cancels = false)
    (htypes : ∀ types ∈ p.collaborators.usedTypes, ∀ fs, (types fs).cancels = false)
    (hlinker : ∀ linker ∈ p.collaborators.linker, ∀ fs, (linker fs).cancels = false) :
    p.lateTool s = none := by
  have hquiet : ∀ tool spec after, exec (p.upToStripTool tool) s = (.ok spec, after) →
      after.cancelled = false := by
    intro tool spec after hexec
    obtain ⟨_, _, -, hexec⟩ := of_exec_bind_ok hexec
    obtain ⟨_, _, -, hexec⟩ := of_exec_bind_ok hexec
    obtain ⟨_, entered, henter, hexec⟩ := of_exec_bind_ok hexec
    have hsilent : Adds Silent (p.prepareStripTool tool) :=
      adds_prepareStripTool p tool (fun _ _ => rfl) (.askIfThere_of_not_cancels htypes)
        (.askIfThere_of_not_cancels hlinker)
    have hadded := (hsilent entered).happened
    rw [hexec] at hadded
    rw [hadded.cancelled, cancelledAfter_of_silent hadded.meets]
    exact not_cancelled_of_enter p .strip henter hprogress
  unfold lateTool
  split
  · next tool hstripper =>
    split
    · rfl
    · split
      · next spec after hexec => rw [hquiet tool spec after hexec]; rfl
      · rfl
  · rfl

/-- A cancelled build starts no process but, in one case, its stripping tool. -/
theorem late_launches (p : Plan) (s : State) :
    late p.run s = (p.lateTool s).toList ∧
      (∀ spec ∈ p.lateTool s, p.collaborators.stripper = some (.tool spec.executable)) ∧
      (∀ source, late (p.runCompileLink source) s = []) ∧
      ((∀ callback ∈ p.collaborators.progress, ∀ fs,
          (callback Phase.strip.progress fs).cancels = false) →
        (∀ types ∈ p.collaborators.usedTypes, ∀ fs, (types fs).cancels = false) →
        (∀ linker ∈ p.collaborators.linker, ∀ fs, (linker fs).cancels = false) →
        p.lateTool s = none) := by
  refine ⟨?_, fun spec hspec => p.stripper_of_lateTool hspec,
    fun source => late_of_prompt (adds_runCompileLink p source s), p.lateTool_eq_none s⟩
  by_cases h : ∃ tool, tool ≠ [] ∧ p.collaborators.stripper = some (.tool tool)
  · obtain ⟨tool, htool, hstripper⟩ := h
    exact late_run_of_tool p htool hstripper s
  · have hnot : ∀ tool, p.collaborators.stripper = some (.tool tool) → tool = [] := by
      intro tool hstripper
      by_cases htool : tool = []
      · exact htool
      · exact absurd ⟨tool, htool, hstripper⟩ h
    rw [late_of_prompt (adds_run_of_not_tool p hnot s)]
    unfold lateTool
    split
    · next tool hstripper => rw [if_pos (hnot tool hstripper)]; rfl
    · rfl

/-- A build with a stripping tool, cancelled by the progress callback when it hears of `strip`. -/
def cancelledAtStrip : Plan where
  options := {}
  paths := { temp := utf8 "/t", cache := utf8 "/c", staging := utf8 "/s" }
  generator := utf8 "/g"
  launcher := fun _ _ _ => {}
  collaborators :=
    { stripper := some (.tool (utf8 "/tool"))
      progress := some fun told _ => { value := (), cancels := told.phase == .strip } }

/-- The stripping tool starts, though the build is cancelled. -/
theorem late_run_cancelledAtStrip :
    late cancelledAtStrip.run { session := {} } =
      [{ executable := utf8 "/tool"
         arguments := stripArguments (utf8 "/s/Managed") none .low []
         directory := utf8 "/s/Managed" }] := by
  rw [(cancelledAtStrip.late_launches { session := {} }).1]
  decide +kernel

end Plan

end NativeBuild
