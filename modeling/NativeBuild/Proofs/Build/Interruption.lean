import NativeBuild.CommandLine
import NativeBuild.Proofs.Build.Order

/-!
# How a cancelled build ends

A build looks whether it has been cancelled when it enters a phase. So no phase is entered in a
cancelled build, and a build that is cancelled before it enters the last one fails. Where the work
of the phase that it is in fails by itself, the build ends with this failure; otherwise it ends as
cancelled when it would enter the next phase.
-/
namespace NativeBuild

namespace Build

/-- No phase is entered in a cancelled build. -/
def Heedful : Condition
  | c, .entered _ => c = false
  | _, _ => True

theorem heedful_of_inside {c : Bool} {e : Event} (h : Inside c e) : Heedful c e := by
  cases e with
  | entered => exact h.elim
  | _ => trivial

/-- Behind the moment of cancellation no phase is entered. -/
theorem entered_of_heedful {es : List Event} (h : Meets Heedful true es) : entered es = [] := by
  induction es with
  | nil => rfl
  | cons e es ih =>
    cases e with
    | entered => exact absurd h.1 (by simp [Heedful])
    | _ => exact ih h.2

theorem Meets.right {E : Condition} {c : Bool} {es fs : List Event} (h : Meets E c (es ++ fs)) :
    Meets E (cancelledAfter c es) fs := by
  induction es generalizing c with
  | nil => simpa using h
  | cons e es ih =>
    rw [cancelledAfter_cons]
    exact ih h.2

end Build

namespace Plan

open Build

/-- The failure of the work of a phase, if one fails when some phases are passed in turn. -/
def workFailure (p : Plan) (source : Path) : List Phase → State → Option Stop
  | [], _ => none
  | phase :: phases, s =>
    match exec (p.enter phase) s with
    | (.error _, _) => none
    | (.ok (), entered) =>
      match exec (p.work source phase) entered with
      | (.error e, _) => some e
      | (.ok (), after) => p.workFailure source phases after

theorem adds_heedful_passAll (p : Plan) (source : Path) (phases : List Phase) :
    Adds Heedful (p.passAll source phases) := by
  induction phases with
  | nil => exact .pure ()
  | cons phase phases ih =>
    refine Adds.bind ?_ fun _ => ih
    refine (adds_enter_of p phase rfl (fun _ => trivial) fun _ => trivial).bind fun _ => ?_
    exact (adds_work p source phase).mono fun _ _ => heedful_of_inside

/-- Passing phases in turn ends with the failure of the work of a phase, if there is one. Otherwise
all are passed, or the build has been cancelled when it would enter one of them. -/
theorem passAll_result (p : Plan) (source : Path) (phases : List Phase) (s : State) :
    (exec (p.passAll source phases) s).1 = .ok () ∨
      (exec (p.passAll source phases) s).1 =
        .error ((p.workFailure source phases s).getD (.failed .cancelled)) := by
  induction phases generalizing s with
  | nil => exact .inl rfl
  | cons phase phases ih =>
    unfold passAll pass workFailure
    rw [bind_assoc]
    cases hs : s.cancelled with
    | true =>
      obtain ⟨session, henter⟩ := exec_enter_of_cancelled p phase hs
      rw [exec_bind_error henter, henter]
      exact .inr rfl
    | false =>
      obtain ⟨entered, -, henter, -⟩ := exec_enter_of_not p phase hs
      rw [exec_bind_ok henter, henter]
      dsimp only
      cases hwork : exec (p.work source phase) entered with
      | mk result after =>
        cases result with
        | error e =>
          rw [exec_bind_error hwork]
          exact .inr rfl
        | ok =>
          rw [exec_bind_ok hwork]
          exact ih after

/-- A build that passes some phases from a state, adds some events and ends with a result does what
its cancellation asks for. -/
structure Heeds (p : Plan) (source : Path) (phases : List Phase) (s : State) (es : List Event)
    (result : Except Stop Unit × State) : Prop where
  /-- Nothing that was recorded before is lost. -/
  events : result.2.events = s.events ++ es
  /-- A build that is cancelled before it starts enters no phase, and ends as cancelled. -/
  start : s.cancelled = true → entered es = [] ∧ result.1 = .error (.failed .cancelled)
  /-- A build that is cancelled before it enters its last phase enters no other, and ends as
  cancelled, or as the work of the phase that it is in ends. -/
  during : ∀ earlier later, es = earlier ++ .cancelled :: later → .done ∉ entered earlier →
    entered later = [] ∧
      result.1 = .error ((p.workFailure source phases s).getD (.failed .cancelled))

theorem heeds_passAll (p : Plan) (source : Path) {phases : List Phase}
    (hgrowing : (phases.map Phase.fraction).Pairwise (· < ·))
    (hlast : phases.getLast? = some .done) (s : State) :
    p.Heeds source phases s (happened (p.passAll source phases) s)
      (exec (p.passAll source phases) s) := by
  have hadded := (adds_heedful_passAll p source phases s).happened
  obtain ⟨⟨es, hthrough⟩, -⟩ := p.goesThrough_passAll source hgrowing hlast s
  obtain rfl : es = happened (p.passAll source phases) s :=
    List.append_cancel_left (hthrough.events.symm.trans hadded.events)
  refine ⟨hadded.events, fun hs => ?_, fun earlier later hes hearlier => ?_⟩
  · cases phases with
    | nil => cases hlast
    | cons phase phases =>
      obtain ⟨session, henter⟩ := exec_enter_of_cancelled p phase hs
      refine ⟨entered_of_heedful (hs ▸ hadded.meets), ?_⟩
      unfold passAll pass
      rw [bind_assoc, exec_bind_error henter]
  · have hmeets := hadded.meets
    rw [hes] at hmeets
    have hlater : entered later = [] :=
      entered_of_heedful (by simpa [Event.cancels] using hmeets.right.2)
    -- Had all phases been passed, the last one would have been entered, and neither part has it.
    refine ⟨hlater, (p.passAll_result source phases s).resolve_left fun hok => ?_⟩
    have hdone := hthrough.succeeds.mp hok
    rw [hes, entered_append, List.mem_append] at hdone
    obtain hdone | hdone := hdone
    · exact hearlier hdone
    · have hnone : entered (.cancelled :: later) = [] := hlater
      rw [hnone] at hdone
      cases hdone

/-- The exit status of the command line tells a cancelled build from one that failed. -/
theorem reportFailure_status (failure : Failure) (session : Session) :
    ((CommandLine.reportFailure failure).run session).1 =
      if failure.isCancelled then 130 else 1 := by
  have hstatus : ((CommandLine.reportFailure failure).run session).1 = failure.exitStatus := by
    unfold CommandLine.reportFailure
    split <;> rfl
  rw [hstatus, Failure.exitStatus]

/-- A full build heeds its cancellation, and so does a build that links the generated sources
of another cache, unless it is refused. A build that ends as cancelled has an exit status of
its own. -/
theorem heeds_cancellation (p : Plan) (s : State) :
    p.Heeds p.paths.cache p.phases s (happened p.run s) (exec p.run s) ∧
      (∀ source, Path.sameIgnoringCase s.session.here source p.paths.cache = false →
        p.collaborators.nativeBuilder ≠ none →
        p.Heeds source linkPhases s (happened (p.runCompileLink source) s)
          (exec (p.runCompileLink source) s)) ∧
      ∀ failure session, ((CommandLine.reportFailure failure).run session).1 =
        if failure.isCancelled then 130 else 1 := by
  refine ⟨?_, fun source hsource hbuilder => ?_, reportFailure_status⟩
  · obtain ⟨hgrowing, hlast⟩ := p.phases_growing
    rw [run_eq_passAll]
    exact p.heeds_passAll p.paths.cache hgrowing hlast s
  · obtain ⟨hgrowing, hlast⟩ := linkPhases_growing
    unfold happened
    rw [p.runCompileLink_eq_passAll source s hsource hbuilder]
    exact p.heeds_passAll source hgrowing hlast s

/-- A cancelled build in which no work fails ends as cancelled. -/
theorem Heeds.ends_cancelled {p : Plan} {source : Path} {phases : List Phase} {s : State}
    {es : List Event} {result : Except Stop Unit × State} (h : p.Heeds source phases s es result)
    (hcancelled : es.any Event.cancels = true) (hdone : .done ∉ entered es)
    (hwork : (p.workFailure source phases s).isNone = true) :
    result.1 = .error (.failed .cancelled) := by
  obtain ⟨e, hmem, he⟩ := List.any_eq_true.mp hcancelled
  obtain ⟨earlier, later, hes⟩ := List.append_of_mem hmem
  cases e with
  | cancelled =>
    rw [hes, entered_append, List.mem_append, not_or] at hdone
    obtain ⟨-, hresult⟩ := h.during earlier later hes hdone.1
    rwa [Option.isNone_iff_eq_none.mp hwork] at hresult
  | _ => cases he

/-- A plan whose build is cancelled while the generator runs, which then exits with some code. -/
def cancelledInGenerator (code : Int) : Plan where
  options := {}
  paths := { temp := utf8 "/t", cache := utf8 "/c", staging := utf8 "/s" }
  generator := utf8 "/g"
  launcher := fun _ _ _ => { steps := [.cancel], ending := .exited code }
  collaborators := { nativeBuilder := some (NativeLibrary.builder { library := utf8 "l.so" }) }

/-- A generator that exits as if nothing had happened leaves a cancelled build behind. -/
theorem heeds_cancellation_in_generator :
    (exec (cancelledInGenerator 0).run { session := {} }).1 = .error (.failed .cancelled) ∧
      (exec ((cancelledInGenerator 0).runCompileLink (utf8 "/x")) { session := {} }).1
        = .error (.failed .cancelled) ∧
      ((CommandLine.reportFailure .cancelled).run {}).1 = 130 := by
  obtain ⟨hrun, hlink, hstatus⟩ := (cancelledInGenerator 0).heeds_cancellation { session := {} }
  refine ⟨?_, ?_, hstatus _ _⟩
  · exact hrun.ends_cancelled (by decide +kernel) (by decide +kernel) (by decide +kernel)
  · have hlinked := hlink (utf8 "/x") (by decide +kernel) (by simp [cancelledInGenerator])
    exact hlinked.ends_cancelled (by decide +kernel) (by decide +kernel) (by decide +kernel)

/-- A generator that exits with an error does not: its work fails. -/
example : ((cancelledInGenerator 1).workFailure (utf8 "/c") (cancelledInGenerator 1).phases
    { session := {} }).isSome = true := by
  decide +kernel

end Plan

end NativeBuild
