import NativeBuild.Proofs.Build.Refusal
import NativeBuild.Proofs.Build.Work

/-!
# The order of phases

A build passes its phases in turn: it enters one, does its work, and goes on to the next. The first
phase that fails is the last one of the build, and leaves the state that the build leaves. So the
phases entered are the first ones of the list, and a build succeeds when it enters the last.
-/
namespace NativeBuild

namespace Build

/-- The phases that are entered in some events. -/
def entered (es : List Event) : List Phase :=
  es.filterMap fun
    | .entered phase => some phase
    | _ => none

/-- What the progress callback is told in some events. -/
def announced (es : List Event) : List Progress :=
  es.filterMap fun
    | .announced progress => some progress
    | _ => none

theorem entered_append (es fs : List Event) : entered (es ++ fs) = entered es ++ entered fs :=
  List.filterMap_append

theorem announced_append (es fs : List Event) :
    announced (es ++ fs) = announced es ++ announced fs :=
  List.filterMap_append

theorem entered_of_inside {c : Bool} {es : List Event} (h : Meets Inside c es) :
    entered es = [] ∧ announced es = [] := by
  induction es generalizing c with
  | nil => exact ⟨rfl, rfl⟩
  | cons e es ih =>
    cases e with
    | entered => exact absurd h.1 id
    | announced => exact absurd h.1 id
    | _ => exact ih h.2

theorem entered_of_cancelled {es : List Event} (h : ∀ e ∈ es, e = .cancelled) :
    entered es = [] ∧ announced es = [] := by
  induction es with
  | nil => exact ⟨rfl, rfl⟩
  | cons e es ih =>
    obtain rfl := h e (by simp)
    exact ih fun f hf => h f (by simp [hf])

/-- The phase after some events is the one entered last. -/
theorem phaseAfter_eq (phase : Phase) (es : List Event) :
    phaseAfter phase es = (entered es).getLastD phase := by
  induction es generalizing phase with
  | nil => rfl
  | cons e es ih =>
    cases e with
    | entered entering =>
      have hcons : entered (.entered entering :: es) = entering :: entered es := rfl
      rw [hcons, List.getLastD_cons]
      exact ih entering
    | _ => exact ih phase

end Build

namespace Plan

open Build

/-- The phases of a full build. -/
def phases (p : Plan) : List Phase :=
  [.init, .strip, .prepare, .generate]
    ++ (if p.collaborators.nativeBuilder.isSome then [.compileLink] else [])
    ++ [.stage, .done]

/-- The phases of a build that links the generated sources of another cache. -/
def linkPhases : List Phase := [.init, .compileLink, .stage, .done]

/-- The work of a phase; the generated sources are those of a cache. -/
def work (p : Plan) (source : Path) : Phase → BuildM Unit
  | .init => p.init
  | .strip => p.strip
  | .prepare => p.prepare
  | .generate => p.generate
  | .compileLink =>
    match p.collaborators.nativeBuilder with
    | some builder => p.compileLink builder source
    | none => pure ()
  | .stage => p.stage
  | .done => pure ()

/-- Enters a phase and does its work. -/
def pass (p : Plan) (source : Path) (phase : Phase) : BuildM Unit := do
  p.enter phase
  p.work source phase

/-- Passes some phases in turn. -/
def passAll (p : Plan) (source : Path) : List Phase → BuildM Unit
  | [] => pure ()
  | phase :: phases => do
    p.pass source phase
    p.passAll source phases

theorem run_eq_passAll (p : Plan) : p.run = p.passAll p.paths.cache p.phases := by
  unfold run phases
  cases hbuilder : p.collaborators.nativeBuilder with
  | none => simp [passAll, pass, work, stageAndFinish, bind_assoc]
  | some builder =>
    simp [passAll, pass, work, stageAndFinish, enterCompileLink, hbuilder, bind_assoc]

theorem runCompileLink_eq_passAll (p : Plan) (source : Path) (s : State)
    (hsource : Path.sameIgnoringCase s.session.here source p.paths.cache = false)
    (hbuilder : p.collaborators.nativeBuilder ≠ none) :
    exec (p.runCompileLink source) s = exec (p.passAll source linkPhases) s := by
  unfold runCompileLink
  rw [exec_bind_ok (exec_get s)]
  cases hnative : p.collaborators.nativeBuilder with
  | none => exact absurd hnative hbuilder
  | some builder =>
    simp [hsource, linkPhases, passAll, pass, work, stageAndFinish, enterCompileLink, hnative,
      bind_assoc]

/-- The work of every phase but `strip` starts no process in a cancelled build. -/
theorem adds_work_of_ne_strip (p : Plan) (source : Path) {phase : Phase} (h : phase ≠ .strip) :
    Adds Working (p.work source phase) := by
  cases phase with
  | init => exact adds_init p
  | strip => exact absurd rfl h
  | prepare => exact adds_prepare p
  | generate => exact adds_generate p
  | compileLink =>
    simp only [work]
    split
    · exact adds_compileLink p _ source
    · exact .pure ()
  | stage => exact adds_stage p
  | done => exact .pure ()

theorem adds_work (p : Plan) (source : Path) (phase : Phase) :
    Adds Inside (p.work source phase) := by
  by_cases h : phase = .strip
  · subst h
    exact adds_strip p
  · exact (adds_work_of_ne_strip p source h).inside

/-- What the events of a build tell the progress callback, if there is one: each phase that is
entered, with its part of the work. It may cancel the build when it hears of a phase. -/
structure Tells (p : Plan) (es : List Event) : Prop where
  announced : announced es =
    if p.collaborators.progress.isSome then (entered es).map Phase.progress else []
  heard : ∀ callback ∈ p.collaborators.progress, ∀ phase ∈ entered es,
    (∀ fs, (callback phase.progress fs).cancels = true) → .cancelled ∈ es

theorem Tells.of_entered_eq_nil {p : Plan} {es : List Event} (hentered : entered es = [])
    (hannounced : Build.announced es = []) : p.Tells es where
  announced := by
    rw [hentered, hannounced]
    split <;> rfl
  heard := by simp [hentered]

theorem Tells.append {p : Plan} {es fs : List Event} (hes : p.Tells es) (hfs : p.Tells fs) :
    p.Tells (es ++ fs) where
  announced := by
    rw [announced_append, entered_append, hes.announced, hfs.announced]
    split
    · rw [List.map_append]
    · rfl
  heard callback hcallback phase hphase hcancels := by
    rw [entered_append, List.mem_append] at hphase
    rw [List.mem_append]
    exact hphase.imp (hes.heard callback hcallback phase · hcancels)
      (hfs.heard callback hcallback phase · hcancels)

/-- The events of entering a phase enter it. -/
theorem entered_of_enter (p : Plan) (phase : Phase) {rest : List Event}
    (h : ∀ e ∈ rest, e = .cancelled) :
    entered (.entered phase :: p.announcement phase ++ rest) = [phase] := by
  unfold announcement
  rw [entered_append, (entered_of_cancelled h).1]
  split <;> rfl

theorem tells_of_enter (p : Plan) (phase : Phase) {rest : List Event}
    (h : ∀ e ∈ rest, e = .cancelled)
    (hheard : ∀ callback ∈ p.collaborators.progress,
      (∀ fs, (callback phase.progress fs).cancels = true) → .cancelled ∈ rest) :
    p.Tells (.entered phase :: p.announcement phase ++ rest) where
  announced := by
    rw [p.entered_of_enter phase h, announced_append, (entered_of_cancelled h).2]
    unfold announcement
    split <;> rfl
  heard callback hcallback entering hmem hcancels := by
    rw [p.entered_of_enter phase h] at hmem
    obtain rfl := List.mem_singleton.mp hmem
    exact List.mem_append_right _ (hheard callback hcallback hcancels)

/-- Passing a phase either enters it and succeeds, or fails before or after entering it; the last
phase does not fail once it is entered. -/
theorem pass_cases (p : Plan) (source : Path) (phase : Phase) (s : State) :
    ∃ es, Added Anything s (exec (p.pass source phase) s).2 es ∧ p.Tells es ∧
      (((exec (p.pass source phase) s).1 = .ok () ∧ entered es = [phase]) ∨
        ∃ e, (exec (p.pass source phase) s).1 = .error e ∧
          (entered es = [] ∨ entered es = [phase] ∧ phase ≠ .done)) := by
  unfold pass
  cases hs : s.cancelled with
  | true =>
    obtain ⟨session, hexec⟩ := exec_enter_of_cancelled p phase hs
    rw [exec_bind_error hexec]
    exact ⟨[], ⟨by simp, by simp, rfl, trivial⟩, .of_entered_eq_nil rfl rfl,
      .inr ⟨_, rfl, .inl rfl⟩⟩
  | false =>
    obtain ⟨after, rest, hexec, hadded, hrest, hheard, -⟩ := exec_enter_of_not p phase hs
    rw [exec_bind_ok hexec]
    have hwork := (adds_work p source phase after).happened
    obtain ⟨hnone, hquiet⟩ := entered_of_inside hwork.meets
    have hall : entered (.entered phase :: p.announcement phase ++ rest
        ++ happened (p.work source phase) after) = [phase] := by
      rw [entered_append, p.entered_of_enter phase hrest, hnone, List.append_nil]
    refine ⟨_, hadded.trans (hwork.mono fun _ _ _ => trivial),
      (p.tells_of_enter phase hrest hheard).append (.of_entered_eq_nil hnone hquiet), ?_⟩
    rw [hall]
    cases hresult : (exec (p.work source phase) after).1 with
    | ok => exact .inl ⟨rfl, rfl⟩
    | error e =>
      refine .inr ⟨e, rfl, .inr ⟨rfl, ?_⟩⟩
      rintro rfl
      cases hresult

/-- Passing some phases in turn: either all are entered and it succeeds, or some phase fails behind
those that are passed, and leaves its state behind. -/
theorem passAll_cases (p : Plan) (source : Path) (phases : List Phase) (s : State) :
    ∃ es, Added Anything s (exec (p.passAll source phases) s).2 es ∧ p.Tells es ∧
      (((exec (p.passAll source phases) s).1 = .ok () ∧ entered es = phases) ∨
        ∃ e passed phase later middle,
          (exec (p.passAll source phases) s).1 = .error e ∧
          phases = passed ++ phase :: later ∧
          exec (p.passAll source passed) s = (.ok (), middle) ∧
          exec (p.pass source phase) middle = exec (p.passAll source phases) s ∧
          (entered es = passed ∨ entered es = passed ++ [phase] ∧ phase ≠ .done)) := by
  induction phases generalizing s with
  | nil => exact ⟨[], .refl _ s, .of_entered_eq_nil rfl rfl, .inl ⟨rfl, rfl⟩⟩
  | cons first phases ih =>
    obtain ⟨es, hes, htells, hpass⟩ := pass_cases p source first s
    unfold passAll
    cases hexec : exec (p.pass source first) s with
    | mk result after =>
      rw [hexec] at hes hpass
      obtain ⟨hok, hentered⟩ | ⟨e, herror, hentered⟩ := hpass
      · obtain rfl : result = .ok () := hok
        rw [exec_bind_ok hexec]
        obtain ⟨fs, hfs, htells', hrest⟩ := ih after
        refine ⟨es ++ fs, hes.trans hfs, htells.append htells', ?_⟩
        rw [entered_append, hentered]
        obtain ⟨hok, hall⟩ | ⟨e, passed, phase, later, middle, herror, rfl, hpassed, hlast, hfs⟩ :=
          hrest
        · exact .inl ⟨hok, by rw [hall]; rfl⟩
        · refine .inr ⟨e, first :: passed, phase, later, middle, herror, rfl, ?_, hlast, ?_⟩
          · exact (exec_bind_ok hexec).trans hpassed
          · obtain h | ⟨h, hdone⟩ := hfs
            · exact .inl (by rw [h]; rfl)
            · exact .inr ⟨by rw [h]; rfl, hdone⟩
      · obtain rfl : result = .error e := herror
        rw [exec_bind_error hexec]
        exact ⟨es, hes, htells, .inr ⟨e, [], first, phases, s, rfl, rfl, rfl, hexec, hentered⟩⟩

/-- A build that starts from a state, adds some events and ends with a result goes through some
phases in their order. -/
structure GoesThrough (p : Plan) (phases : List Phase) (s : State) (es : List Event)
    (result : Except Stop Unit × State) : Prop where
  /-- Nothing that was recorded before is lost. -/
  events : result.2.events = s.events ++ es
  /-- The phases entered are the first ones. -/
  entered : entered es <+: phases
  /-- The progress callback is told of each phase entered, once, with its part of the work. -/
  announced : announced es =
    if p.collaborators.progress.isSome then (Build.entered es).map Phase.progress else []
  /-- It hears what it is told: where it cancels the build, the build is cancelled. -/
  heard : ∀ callback ∈ p.collaborators.progress, ∀ phase ∈ Build.entered es,
    (∀ fs, (callback phase.progress fs).cancels = true) → .cancelled ∈ es
  /-- The parts of the work that are told grow. -/
  growing : ((Build.announced es).map Progress.fraction).Pairwise (· < ·)
  /-- The build is in the phase that it entered last. -/
  phase : result.2.phase = (Build.entered es).getLastD s.phase
  /-- It succeeds if it enters the last phase. -/
  succeeds : result.1 = .ok () ↔ .done ∈ Build.entered es

/-- A build that fails does so in one of some phases: those before it are passed, and the state is
left as this phase leaves it. -/
def StopsInPhase (p : Plan) (source : Path) (phases : List Phase) (s : State)
    (result : Except Stop Unit × State) : Prop :=
  ∀ e, result.1 = .error e → ∃ passed phase later middle,
    phases = passed ++ phase :: later ∧
    exec (p.passAll source passed) s = (.ok (), middle) ∧
    exec (p.pass source phase) middle = result

/-- The last phase stands only at the end. -/
theorem done_not_mem_passed {passed later : List Phase} {phase : Phase}
    (hgrowing : ((passed ++ phase :: later).map Phase.fraction).Pairwise (· < ·))
    (hlast : (passed ++ phase :: later).getLast? = some .done) : .done ∉ passed := by
  intro hmem
  have hdone : .done ∈ phase :: later := by
    have hend : (phase :: later).getLast? = some .done := by
      rw [List.getLast?_append, List.getLast?_cons, Option.some_or] at hlast
      rw [List.getLast?_cons, hlast]
    exact List.mem_of_getLast? hend
  rw [List.map_append, List.pairwise_append] at hgrowing
  have hlt := hgrowing.2.2 Phase.done.fraction (List.mem_map_of_mem hmem) Phase.done.fraction
    (List.mem_map_of_mem hdone)
  exact absurd hlt (by decide)

theorem goesThrough_passAll (p : Plan) (source : Path) {phases : List Phase}
    (hgrowing : (phases.map Phase.fraction).Pairwise (· < ·))
    (hlast : phases.getLast? = some .done) (s : State) :
    (∃ es, p.GoesThrough phases s es (exec (p.passAll source phases) s)) ∧
      p.StopsInPhase source phases s (exec (p.passAll source phases) s) := by
  obtain ⟨es, hadded, htells, hcases⟩ := passAll_cases p source phases s
  have hfirst : entered es <+: phases := by
    obtain ⟨-, hall⟩ | ⟨e, passed, phase, later, middle, -, rfl, -, -, h | ⟨h, -⟩⟩ := hcases
    · exact hall ▸ List.prefix_rfl
    · rw [h]
      exact List.prefix_append _ _
    · rw [h]
      exact ⟨later, by simp⟩
  refine ⟨⟨es, hadded.events, hfirst, htells.announced, htells.heard, ?_, ?_, ?_⟩, ?_⟩
  · rw [htells.announced]
    split
    · rw [List.map_map]
      exact hgrowing.sublist (hfirst.sublist.map _)
    · exact .nil
  · rw [hadded.phase, phaseAfter_eq]
  · obtain ⟨hok, hall⟩ | ⟨e, passed, phase, later, middle, herror, rfl, -, -, hentered⟩ := hcases
    · rw [hall]
      exact iff_of_true hok (List.mem_of_getLast? hlast)
    · have hnot := done_not_mem_passed hgrowing hlast
      refine iff_of_false (fun hok => ?_) fun hmem => ?_
      · cases herror.symm.trans hok
      · obtain h | ⟨h, hphase⟩ := hentered
        · rw [h] at hmem
          exact hnot hmem
        · rw [h, List.mem_append, List.mem_singleton] at hmem
          obtain hmem | hmem := hmem
          · exact hnot hmem
          · exact hphase hmem.symm
  · intro e herror
    obtain ⟨hok, -⟩ | ⟨e', passed, phase, later, middle, -, hphases, hpassed, hstop, -⟩ := hcases
    · cases hok.symm.trans herror
    · exact ⟨passed, phase, later, middle, hphases, hpassed, hstop⟩

/-- The link is refused when it would read the cache that it writes, or has nobody to link. -/
theorem exec_runCompileLink_of_refused (p : Plan) (source : Path) (s : State)
    (h : Path.sameIgnoringCase s.session.here source p.paths.cache = true ∨
      p.collaborators.nativeBuilder = none) :
    ∃ e, exec (p.runCompileLink source) s = (.error e, s) := by
  by_cases hsource : Path.sameIgnoringCase s.session.here source p.paths.cache = true
  · exact ⟨_, p.exec_runCompileLink_of_same hsource⟩
  · unfold runCompileLink
    rw [exec_bind_ok (exec_get s), if_neg hsource, h.resolve_left hsource]
    exact ⟨_, rfl⟩

/-- The phases of a full build grow, up to the last one. -/
theorem phases_growing (p : Plan) :
    (p.phases.map Phase.fraction).Pairwise (· < ·) ∧ p.phases.getLast? = some .done := by
  constructor
  · unfold phases
    split <;> decide
  · unfold phases
    split <;> rfl

theorem linkPhases_growing :
    (linkPhases.map Phase.fraction).Pairwise (· < ·) ∧ linkPhases.getLast? = some .done := by
  decide

end Plan

end NativeBuild
