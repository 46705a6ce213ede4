import NativeBuild.Proofs.Build.Phases

/-!
# Generating succeeds only with the generator

The work that generates the sources goes on behind the generator only if its process was started and
exited with code zero. So whatever is done behind it, such as stamping the cache, is done behind a
process that is in the record.
-/
namespace NativeBuild.Plan

open Build

variable {p : Plan} {s s' after : State}

/-- Between two states, the generator was launched in its phase and exited with code zero. -/
def Generated (p : Plan) (s after : State) : Prop :=
  ∃ before spec files rest, after.events = s.events ++ before ++ .launched spec files :: rest ∧
    phaseAfter s.phase before = .generate ∧
    (p.launcher { s with events := s.events ++ before }.launches spec files).ending = .exited 0

theorem Generated.of_added {es : List Event} (h : p.Generated s' after)
    (hadded : Added Anything s s' es) : p.Generated s after := by
  obtain ⟨before, spec, files, rest, hevents, hphase, hexited⟩ := h
  refine ⟨es ++ before, spec, files, rest, ?_, ?_, ?_⟩
  · rw [hevents, hadded.events, List.append_assoc s.events]
  · rw [phaseAfter_append, ← hadded.phase, hphase]
  · unfold State.launches at hexited ⊢
    rwa [hadded.events, List.append_assoc] at hexited

theorem Generated.added {es : List Event} (h : p.Generated s s')
    (hadded : Added Anything s' after es) : p.Generated s after := by
  obtain ⟨before, spec, files, rest, hevents, hphase, hexited⟩ := h
  refine ⟨before, spec, files, rest ++ es, ?_, hphase, hexited⟩
  rw [hadded.events, hevents]
  simp

/-- In the phase that generates, a step that succeeds has run the generator. -/
def Generates {α : Type} (p : Plan) (m : BuildM α) : Prop :=
  ∀ s a after, s.phase = .generate → exec m s = (.ok a, after) → p.Generated s after

section

variable {α β : Type} {m : BuildM α} {f : α → BuildM β}

theorem phase_of_working {es : List Event} (h : Added Working s after es) :
    after.phase = s.phase := by
  have hinside : Meets Inside s.cancelled es := h.meets.mono fun _ _ => And.left
  rw [h.phase, phaseAfter_eq, (entered_of_inside hinside).1]
  rfl

theorem Generates.of_bind (hm : Adds Working m) (hf : ∀ a, p.Generates (f a)) :
    p.Generates (m >>= f) := by
  intro s b after hphase h
  obtain ⟨a, between, hrun, h⟩ := of_exec_bind_ok h
  obtain ⟨es, hadded⟩ := hm s
  rw [hrun] at hadded
  have hbetween := (phase_of_working hadded).trans hphase
  exact (hf a between b after hbetween h).of_added (hadded.mono fun _ _ _ => trivial)

theorem Generates.bind (hm : p.Generates m) (hf : ∀ a, Adds Anything (f a)) :
    p.Generates (m >>= f) := by
  intro s b after hphase h
  obtain ⟨a, between, hrun, h⟩ := of_exec_bind_ok h
  obtain ⟨es, hadded⟩ := hf a between
  rw [h] at hadded
  exact (hm s a between hphase hrun).added hadded

end

/-- A process that gives an exit code exited with it. -/
theorem generated_of_launch {w : Type} {onLine : Bool → Text → w → BuildM w} {onPoll : w → BuildM w}
    (hline : ∀ isError text x, Adds Anything (onLine isError text x))
    (hpoll : ∀ x, Adds Anything (onPoll x)) {spec : ProcessSpec} {x y : w}
    (hphase : s.phase = .generate)
    (h : exec (launch p.launcher spec onLine onPoll x) s = (.ok (.ok 0, y), after)) :
    p.Generated s after := by
  obtain ⟨rest, hadded⟩ := exec_launch (fun _ => trivial) p.launcher spec x s hline hpoll
  rw [h] at hadded
  refine ⟨[], spec, s.session.files, rest, ?_, hphase, ?_⟩
  · rw [hadded.events, List.append_nil, List.append_assoc, List.singleton_append]
  · unfold launch at h
    rw [exec_bind_ok (exec_get s)] at h
    dsimp only at h
    rw [exec_bind_ok (exec_record _ s)] at h
    obtain ⟨z, played, -, h⟩ := of_exec_bind_ok h
    rw [List.append_nil]
    split at h
    · next code hending =>
      cases congrArg Prod.fst h
      exact hending
    · cases congrArg Prod.fst h
    · cases congrArg Prod.fst h

theorem generates_runProcess (here : Path) (spec : ProcessSpec) :
    p.Generates (p.runProcess here spec) := by
  refine .of_bind (.perform _) fun _ => .of_bind (.perform _) fun _ => ?_
  refine .of_bind adds_checkCancelled fun _ => .of_bind (.log _ _ _) fun _ => ?_
  intro s a after hphase h
  obtain ⟨⟨result, w⟩, ended, hlaunch, h⟩ := of_exec_bind_ok h
  obtain ⟨w', watched, hwatch, h⟩ := of_exec_bind_ok h
  obtain ⟨es, hwatched⟩ := @adds_watch Anything (fun _ _ => trivial) (fun _ => trivial) p
    (Path.join (Staging.generated here p.paths.cache) Staging.diagnosticsFile)
    Diagnostic.Tail.finish w ended
  rw [hwatch] at hwatched
  split at h
  · cases congrArg Prod.fst h
  · have hgenerated := generated_of_launch adds_onLine
      (adds_watch (fun _ _ => trivial) (fun _ => trivial) p _ _) hphase hlaunch
    obtain ⟨fs, hlogged⟩ : AddsFrom Anything _ watched := Adds.log .debug (utf8 "invoker")
      (utf8 "il2cpp finished, " ++ Text.ofNat w'.tail.reported ++ utf8 " diagnostics reported") watched
    rw [h] at hlogged
    exact (hgenerated.added hwatched).added hlogged
  · cases congrArg Prod.fst h

theorem generates_generateSources (p : Plan) : p.Generates p.generateSources := by
  refine .of_bind .get fun s => .of_bind (.succeed _) fun arguments => ?_
  refine .of_bind adds_checkCancelled fun _ => ?_
  refine .of_bind (adds_writeExtraTypes working_cancelled p) fun types => ?_
  refine .bind ?_ fun _ => .pure _
  exact .of_bind .get fun s => generates_runProcess _ _

end NativeBuild.Plan
