import NativeBuild.Proofs.Build.Watching

/-!
# Following the generator

The diagnostics file is gone before the generator starts, so what is found in it is what this
process has written. It is watched until the process has ended, and what comes of the process is
told by the records in it: they are reported, and a failure shows them, or what was written to the
error stream if there are none.
-/
namespace NativeBuild

open FileSystem Diagnostic Build

namespace Plan

/-- Where the generator writes its diagnostics. -/
def diagnosticsAt (p : Plan) (here : Path) : Path :=
  Path.join (Staging.generated here p.paths.cache) Staging.diagnosticsFile

section Process

variable (p : Plan) (here : Path) (spec : ProcessSpec) (s : State)

/-- What a build does before it launches the generator. -/
def prepareProcess : BuildM Unit := do
  Build.perform (Staging.ensureDirectory spec.directory)
  Build.perform (Staging.attempt "cannot remove stale diagnostics" (p.diagnosticsAt here)
    (FileAction.removeIfThere (p.diagnosticsAt here)))
  checkCancelled
  Build.log .info (utf8 "invoker")
    (utf8 "Invoking il2cpp with arguments: " ++ Text.join (utf8 " ") spec.arguments)

/-- What a build makes of the end of the generator. -/
def conclude (spec : ProcessSpec) (result : Except Text Int) (w : Watch) : BuildM Unit :=
  match result with
  | .error message => Build.fail { kind := .processFailure, message, path := spec.executable }
  | .ok 0 =>
    Build.log .debug (utf8 "invoker")
      (utf8 "il2cpp finished, " ++ Text.ofNat w.tail.reported ++ utf8 " diagnostics reported")
  | .ok code =>
    Build.fail
      { kind := .processFailure
        message := utf8 "il2cpp exited with code " ++ Text.ofInt code
        path := spec.executable
        exitCode := some code
        diagnostics := w.shown }

/-- What a build does from the launch of the generator on. -/
def followProcess : BuildM Unit := do
  let (result, w) ← Build.launch p.launcher spec onLine
    (p.watch (p.diagnosticsAt here) Diagnostic.Tail.poll) {}
  let w ← p.watch (p.diagnosticsAt here) Diagnostic.Tail.finish w
  conclude spec result w

theorem runProcess_eq : p.runProcess here spec =
    p.prepareProcess here spec >>= fun _ => p.followProcess here spec := by
  unfold runProcess prepareProcess followProcess
  simp only [bind_assoc]
  rfl

/-- Before the generator is launched its file is removed, whatever it held. Nothing is launched or
reported by then. -/
theorem exec_prepareProcess :
    ∃ session result, exec (p.prepareProcess here spec) s = (result, { s with session }) ∧
      (result = .ok () → session.logPlaces = s.session.logPlaces ∧
        ∃ e, session.files.status (p.diagnosticsAt here) = .error e) := by
  unfold prepareProcess
  rw [exec_bind, exec_perform]
  cases hensure : ((Staging.ensureDirectory spec.directory).run s.session).run with
  | mk result ensured =>
  cases result with
  | error failure => exact ⟨ensured, _, rfl, nofun⟩
  | ok =>
  obtain ⟨made, -, rfl⟩ := Staging.of_run_attempt hensure
  dsimp only
  rw [exec_bind, exec_perform]
  dsimp only
  cases hremove : ((Staging.attempt "cannot remove stale diagnostics" (p.diagnosticsAt here)
      (FileAction.removeIfThere (p.diagnosticsAt here))).run { s.session with files := made }).run
    with
  | mk result removed =>
  cases result with
  | error failure => exact ⟨removed, _, rfl, nofun⟩
  | ok =>
  obtain ⟨files, hrun, rfl⟩ := Staging.of_run_attempt hremove
  obtain ⟨e, hstatus⟩ := FileAction.status_of_removeIfThere hrun
  dsimp only
  generalize hready : ({ s with session := { s.session with files } } : State) = ready
  cases hcancelled : ready.cancelled with
  | true =>
    obtain ⟨session, hcheck⟩ := exec_checkCancelled_of_cancelled hcancelled
    rw [exec_bind_error hcheck, ← hready]
    exact ⟨session, _, rfl, nofun⟩
  | false =>
    rw [exec_bind_ok (exec_checkCancelled_of_not hcancelled), ← hready]
    have hlog := Session.loggedFrom_log .info (utf8 "invoker")
      (utf8 "Invoking il2cpp with arguments: " ++ Text.join (utf8 " ") spec.arguments)
      { s.session with files }
    refine ⟨_, _, rfl, fun _ => ⟨hlog.logPlaces, e, ?_⟩⟩
    rw [← hstatus]
    refine hlog.files.status_eq fun at_ entry hfound => ?_
    rw [hstatus] at hfound
    cases hfound

theorem launches_followProcess :
    launches (exec (p.followProcess here spec) s).2.events =
      launches s.events ++ [(spec, s.session.files)] := by
  have hwatch := @adds_watch Unlaunched (fun _ _ => trivial) (fun _ => trivial) p
    (p.diagnosticsAt here)
  have hconclude (result : Except Text Int) (w : Watch) :
      Adds Unlaunched (conclude spec result w) := by
    unfold conclude
    split
    · exact .fail _
    · exact .log _ _ _
    · exact .fail _
  obtain ⟨rest, hrest⟩ := exec_launch (fun _ => trivial) p.launcher spec {} s
    (@adds_onLine Unlaunched) (hwatch Diagnostic.Tail.poll)
  have hlaunched := launches_of_unlaunched hrest
  rw [launches_append] at hlaunched
  unfold followProcess
  rw [exec_bind]
  generalize exec (Build.launch p.launcher spec onLine _ {}) s = launched at hlaunched ⊢
  obtain ⟨learned, ended⟩ := launched
  cases learned with
  | error e => exact hlaunched
  | ok learned =>
    obtain ⟨new, hnew⟩ := ((hwatch _ learned.2).bind (hconclude learned.1)) ended
    exact (launches_of_unlaunched hnew).trans hlaunched

end Process

end Plan

end NativeBuild
