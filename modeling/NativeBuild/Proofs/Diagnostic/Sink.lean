import NativeBuild.Diagnostic

/-!
# What a sink is handed

A look at a diagnostics file hands the diagnostics to a sink while it goes through what it found.
A sink that keeps what it hands on tells which ones these are: behind what it kept before stand the
diagnostics that the look took, each of them once and in order. Keeping them changes nothing for
the sink behind it, whatever that one works in.
-/
namespace NativeBuild.Diagnostic

@[simp] theorem diagnostic?_reported (d : Diagnostic) :
    (Event.reported d).diagnostic? = some d := rfl

@[simp] theorem diagnostic?_refused (cause : Refusal) :
    (Event.refused cause).diagnostic? = none := rfl

@[simp] theorem diagnostic?_restarted : Event.restarted.diagnostic? = none := rfl

theorem taken_cons (e : Event) (events : List Event) :
    taken (e :: events) = e.diagnostic?.toList ++ taken events := by
  rw [taken, List.filterMap_cons, taken]
  cases e.diagnostic? <;> rfl

theorem taken_append (es more : List Event) : taken (es ++ more) = taken es ++ taken more :=
  List.filterMap_append

variable {m : Type → Type} [Monad m] [LawfulMonad m] [MonadLiftT SessionM m]
variable (file : Path) (report : Diagnostic → m Unit)

/-- Of one event, the sink is handed the diagnostic in it, if there is one. -/
theorem Event.run_tell_collecting (e : Event) (kept : List Diagnostic) :
    (e.tell file (collecting report)).run kept
      = (fun _ => ((), kept ++ e.diagnostic?.toList)) <$> e.tell file report := by
  cases e with
  | reported d => simp [tell, collecting]
  | restarted => simp [tell]
  | refused cause => simp [tell]

theorem run_forM_tell_collecting (events : List Event) (kept : List Diagnostic) :
    (forM events (Event.tell file (collecting report))).run kept
      = (fun _ => ((), kept ++ taken events)) <$> forM events (Event.tell file report) := by
  induction events generalizing kept with
  | nil => simp [taken]
  | cons e events ih =>
    simp [Event.run_tell_collecting, ih, taken_cons]

/-- A look keeps the diagnostics that it takes, and is otherwise the look without keeping. -/
theorem Tail.run_lookAt_collecting (look : Look) (t : Tail) (kept : List Diagnostic) :
    (t.lookAt look file (collecting report)).run kept = (do
      let content ← liftM (contentOf file)
      forM (look content t).2 (Event.tell file report)
      return (((look content t).1, (taken (look content t).2).length),
        kept ++ taken (look content t).2)) := by
  simp [lookAt, run_forM_tell_collecting]

end NativeBuild.Diagnostic
