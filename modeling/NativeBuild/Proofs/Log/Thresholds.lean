import NativeBuild.Session
import NativeBuild.Proofs.Dictionary

/-!
# Which records a logger lets through

A logger tests a record twice: first against the level it keeps, then against the threshold of the
record's module. The kept level is the lowest threshold of the filter after every operation, so the
first test never stops a record that the second one would let through.
-/
namespace NativeBuild

namespace Log

namespace Level

theorem le_refl (a : Level) : a ≤ a := Int.le_refl a.rank

theorem le_trans {a b c : Level} (h : a ≤ b) (h' : b ≤ c) : a ≤ c := Int.le_trans h h'

theorem lower_le_left (a b : Level) : a.lower b ≤ a := by
  unfold lower
  split
  · next h => exact Int.le_of_lt h
  · exact a.le_refl

theorem lower_le_right (a b : Level) : a.lower b ≤ b := by
  unfold lower
  split
  · exact b.le_refl
  · next h => exact Int.not_lt.mp h

end Level

namespace Filter

/-- The lowest of a level and the levels of some modules. -/
theorem foldl_lower_le (modules : Dictionary Level) (level : Level) :
    modules.foldl (fun l e => l.lower e.2) level ≤ level := by
  induction modules generalizing level with
  | nil => exact level.le_refl
  | cons e modules ih => exact Level.le_trans (ih _) (level.lower_le_left e.2)

theorem foldl_lower_le_of_mem {modules : Dictionary Level} {e : Text × Level} (h : e ∈ modules)
    (level : Level) : modules.foldl (fun l e => l.lower e.2) level ≤ e.2 := by
  induction modules generalizing level with
  | nil => cases h
  | cons head modules ih =>
    cases h with
    | head => exact Level.le_trans (foldl_lower_le modules _) (level.lower_le_right e.2)
    | tail _ hmem => exact ih hmem _

/-- No module has a threshold below the lowest one. -/
theorem minimum_le_threshold (f : Filter) (module : Text) : f.minimum ≤ f.threshold module := by
  unfold threshold
  cases h : f.modules.get? module with
  | none => exact foldl_lower_le f.modules f.default
  | some level => exact foldl_lower_le_of_mem (Dictionary.mem_of_get? h) f.default

end Filter

namespace Logger

/-- The level kept as a first test is the lowest threshold of the filter. -/
def IsTuned (l : Logger) : Prop := l.level = l.filter.minimum

theorem isTuned_withFilter (l : Logger) (filter : Filter) : (l.withFilter filter).IsTuned := rfl

/-- Where the kept level is the lowest threshold, the first test decides nothing by itself. -/
theorem IsTuned.admits_iff {l : Logger} (h : l.IsTuned) (level : Level) (module : Text) :
    l.admits level module = true ↔ l.sinks ≠ [] ∧ l.filter.threshold module ≤ level := by
  have hfirst : l.filter.threshold module ≤ level → l.level ≤ level := by
    intro hle
    rw [h]
    exact Level.le_trans (l.filter.minimum_le_threshold module) hle
  simp only [admits, Filter.admits, Bool.and_eq_true, decide_eq_true_eq, Bool.not_eq_true',
    List.isEmpty_eq_false_iff]
  constructor
  · intro hall
    exact ⟨hall.1.2, hall.2⟩
  · intro hall
    exact ⟨⟨hfirst hall.2, hall.1⟩, hall.2⟩

end Logger

end Log

namespace Session

/-- What is done to a logger between its start with no sinks and the records it is asked about. -/
inductive LogOperation where
  /-- Sets it up anew from a configuration. -/
  | start (config : Log.Config)
  | addSink (sink : Log.Sink)
  /-- A sink for a file that is opened at that moment. -/
  | addFileSink (p : Path) (format : Log.Format) (appends : Bool)
  | removeSinks
  | setLevel (level : Log.Level)
  | setFilter (specification : Text)
  /-- Logs a record, or not, as the logger has it. -/
  | log (level : Log.Level) (module message : Text)
  | flush

/-- Changes the logger alone. -/
def changeLogger (change : Log.Logger → Log.Logger) : SessionM Unit :=
  modify fun s => { s with logger := change s.logger }

namespace LogOperation

def perform : LogOperation → SessionM Unit
  | start config => startLog config
  | addSink sink => changeLogger (·.addSink sink)
  | addFileSink p format appends => do
    let _ ← Session.addFileSink p format appends
  | removeSinks => closeLog
  | setLevel level => changeLogger (·.setLevel level)
  | setFilter specification => changeLogger (·.setFilter specification)
  | log level module message => Session.log level module message
  | flush => flushLog

/-- The session after some operations, one after the other. -/
def after (operations : List LogOperation) (s : Session) : Session :=
  operations.foldl (fun s o => (o.perform.run s).2) s

end LogOperation

/-- Whatever the session is, the step leaves a logger whose first test decides nothing. -/
def Tunes (x : SessionM Unit) : Prop := ∀ s : Session, (x.run s).2.logger.IsTuned

theorem Tunes.bind {α : Type} {k : α → SessionM Unit} (h : ∀ a, Tunes (k a)) (x : SessionM α) :
    Tunes (x >>= k) := by
  intro s
  exact h (x.run s).1 (x.run s).2

/-- However the sinks are found, setting the logger up ends with a filter and its minimum. -/
theorem tunes_startLog (config : Log.Config) : Tunes (startLog config) := by
  have hlast (filter : Log.Filter) (sinks : List Log.Sink) : Tunes (do
      closeLog
      modify fun s => { s with logger := { filter, level := filter.minimum, sinks } }) := by
    apply Tunes.bind
    intro _ s
    rfl
  unfold startLog
  by_cases hfile : config.file = []
  · simp only [hfile, ne_eq, not_true_eq_false, if_false]
    exact hlast _ _
  · simp only [hfile, ne_eq, not_false_eq_true, if_true]
    apply Tunes.bind
    intro s
    apply Tunes.bind
    intro _
    split
    · exact hlast _ _
    · exact Tunes.bind (fun _ => hlast _ _) _

namespace LogOperation

/-- Logging changes sinks, and sinks alone. -/
theorem log_same (level : Log.Level) (module message : Text) (s : Session) :
    ((Session.log level module message).run s).2.logger.filter = s.logger.filter ∧
      ((Session.log level module message).run s).2.logger.level = s.logger.level := by
  change (if s.logger.admits level module then _ else s).logger.filter = _ ∧
    (if s.logger.admits level module then _ else s).logger.level = _
  split
  · exact ⟨rfl, rfl⟩
  · exact ⟨rfl, rfl⟩

/-- Each operation either leaves the filter and the kept level alone or sets both. -/
theorem isTuned_perform (o : LogOperation) {s : Session} (h : s.logger.IsTuned) :
    (o.perform.run s).2.logger.IsTuned := by
  cases o with
  | start config => exact tunes_startLog config s
  | addSink sink => exact h
  | addFileSink p format appends => exact h
  | removeSinks => exact h
  | setLevel level => exact s.logger.isTuned_withFilter _
  | setFilter specification => exact s.logger.isTuned_withFilter _
  | log level module message =>
    have hsame := log_same level module message s
    unfold Log.Logger.IsTuned
    rw [perform, hsame.1, hsame.2]
    exact h
  | flush => exact h

theorem isTuned_after (operations : List LogOperation) {s : Session} (h : s.logger.IsTuned) :
    (after operations s).logger.IsTuned := by
  induction operations generalizing s with
  | nil => exact h
  | cons o operations ih => exact ih (o.isTuned_perform h)

/-- After any operations on a new logger the kept level is the lowest threshold of the filter, so a
record passes exactly when there is a sink and it reaches the threshold of its module. -/
theorem admits_after_iff (operations : List LogOperation) (s : Session) :
    let reached := (after operations { s with logger := {} }).logger
    reached.level = reached.filter.minimum ∧ ∀ (level : Log.Level) (module : Text),
      reached.admits level module = true ↔
        reached.sinks ≠ [] ∧ reached.filter.threshold module ≤ level := by
  intro reached
  have hnew : ({} : Log.Logger).IsTuned := rfl
  have h : reached.IsTuned := isTuned_after operations hnew
  constructor
  · exact h
  · exact h.admits_iff

end LogOperation

end Session

end NativeBuild
