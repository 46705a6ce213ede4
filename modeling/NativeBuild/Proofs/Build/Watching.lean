import NativeBuild.Proofs.Build.Phases
import NativeBuild.Proofs.Build.Work
import NativeBuild.Proofs.Diagnostic.Tail
import NativeBuild.Proofs.Files.Renewal

/-!
# A watch over a file

While a process runs, a file that it adds to is looked at again and again, between anything else
that happens. The invariant of the run is that the records of all lines that were complete at the
last look have been handed on. So wherever the looks fall, every record of the file has been
handed on after the last one, each of them once.
-/
namespace NativeBuild

open FileSystem Diagnostic Build
open Diagnostic.Tail (Extends reached)

namespace Run

/-- What a process writes to its error stream. -/
def errorLines (steps : List Step) : List Text :=
  steps.filterMap fun
    | .line true text => some text
    | _ => none

/-- A process that only adds to a file, whatever is logged while it runs, and whose file is none of
those that the log is written to. -/
def AddsTo (file : Path) (places : List Location) : List Step → FileSystem → Prop
  | [], _ => True
  | .change edit :: rest, fs => ∀ fs', LoggedAt places fs fs' →
    Extends (fs'.content? file) ((edit fs').content? file) ∧
      Avoids places file (edit fs') ∧ AddsTo file places rest (edit fs')
  | _ :: rest, fs => AddsTo file places rest fs

end Run

namespace Build

/-- The processes launched, with the files that they found. -/
def launches (es : List Event) : List (ProcessSpec × FileSystem) :=
  es.filterMap fun
    | .launched spec files => some (spec, files)
    | _ => none

/-- The diagnostics reported. -/
def reports (es : List Event) : List Diagnostic :=
  es.filterMap fun
    | .reported d => some d
    | _ => none

theorem State.launches_eq (s : State) : s.launches = (Build.launches s.events).length := by
  unfold State.launches Build.launches
  induction s.events with
  | nil => rfl
  | cons e es ih => cases e <;> simp [ih]

@[simp] theorem launches_append (es fs : List Event) :
    launches (es ++ fs) = launches es ++ launches fs := List.filterMap_append

@[simp] theorem reports_append (es fs : List Event) :
    reports (es ++ fs) = reports es ++ reports fs := List.filterMap_append

@[simp] theorem reports_reported (ds : List Diagnostic) : reports (ds.map .reported) = ds := by
  simp [reports, List.filterMap_map]

/-- No process is launched. -/
def Unlaunched : Condition
  | _, .launched _ _ => False
  | _, _ => True

theorem launches_of_unlaunched {s after : State} {new : List Event}
    (h : Added Unlaunched s after new) : launches after.events = launches s.events := by
  have hnew (c : Bool) (es : List Event) (hmeets : Meets Unlaunched c es) : launches es = [] := by
    induction es generalizing c with
    | nil => rfl
    | cons e es ih =>
      cases e with
      | launched => exact hmeets.1.elim
      | _ => exact ih _ hmeets.2
  rw [h.events, launches_append, hnew _ _ h.meets, List.append_nil]

/-- A build that may have been cancelled has neither launched nor reported anything by that. -/
theorem of_cancelling {s after : State} {rest : List Event} (h : Added Cancelling s after rest) :
    launches after.events = launches s.events ∧ reports after.events = reports s.events := by
  refine ⟨launches_of_unlaunched (h.mono fun c e he => he ▸ trivial), ?_⟩
  have hreports : reports rest = [] :=
    List.filterMap_eq_nil_iff.mpr fun e he => by rw [cancelled_of_meets h.meets e he]
  rw [h.events, reports_append, hreports, List.append_nil]

end Build

namespace Plan

/-- The caller's sink hears what it is handed: where it cancels the build at one of some
diagnostics, the build is cancelled. -/
def Heard (p : Plan) (ds : List Diagnostic) (s : State) : Prop :=
  ∀ sink ∈ p.collaborators.diagnostics, ∀ d ∈ ds, (∀ fs, (sink d fs).cancels = true) →
    s.cancelled = true

theorem Heard.append {p : Plan} {s after : State} {ds more : List Diagnostic} (h : p.Heard ds s)
    (hstays : s.cancelled = true → after.cancelled = true) (hmore : p.Heard more after) :
    p.Heard (ds ++ more) after := by
  intro sink hsink d hd hcancels
  obtain hd | hd := List.mem_append.mp hd
  · exact hstays (h sink hsink d hd hcancels)
  · exact hmore sink hsink d hd hcancels

/-- One state leads to another while some diagnostics are handed on. They are in the record, the
files change for the log alone, and the caller's sink may cancel the build. -/
structure Told (p : Plan) (s after : State) (ds : List Diagnostic) : Prop where
  logged : Session.LoggedFrom s.session after.session
  reports : reports after.events = reports s.events ++ ds
  cancelled : s.cancelled = true → after.cancelled = true
  heard : p.Heard ds after

theorem Told.of_logged {p : Plan} {s : State} {session : Session}
    (h : Session.LoggedFrom s.session session) : p.Told s { s with session } [] :=
  ⟨h, by simp, id, by simp [Heard]⟩

theorem Told.trans {p : Plan} {s middle after : State} {ds more : List Diagnostic}
    (h : p.Told s middle ds) (h' : p.Told middle after more) : p.Told s after (ds ++ more) where
  logged := h.logged.trans h'.logged
  reports := by rw [h'.reports, h.reports, List.append_assoc]
  cancelled hs := h'.cancelled (h.cancelled hs)
  heard := h.heard.append h'.cancelled h'.heard

section Sink

variable {p : Plan}
  (hsink : ∀ sink ∈ p.collaborators.diagnostics, ∀ d fs, (sink d fs).change fs = fs)
include hsink

/-- A diagnostic goes to the caller's sink, which leaves the files as they are, or to the log. -/
theorem exec_report (d : Diagnostic) (s : State) :
    ∃ after, exec (p.report d) s = (.ok (), after) ∧ p.Told s after [d] := by
  unfold report
  cases h : p.collaborators.diagnostics with
  | none =>
    have hlog := Session.loggedFrom_log d.severity.level (utf8 "diag") d.text s.session
    dsimp only
    rw [exec_bind_ok (exec_record _ s)]
    exact ⟨_, exec_liftSession _ _, hlog, by simp [reports], id, by simp [Heard, h]⟩
  | some sink =>
    dsimp only
    rw [exec_tell]
    obtain ⟨after, rest, hask, hadded, -⟩ :=
      exec_ask (sink d) { s with events := s.events ++ [.reported d] }
    have hsession := exec_ask_session (sink d) { s with events := s.events ++ [.reported d] }
    have hcancelled := cancelled_exec_ask (sink d) { s with events := s.events ++ [.reported d] }
    rw [hask] at hsession hcancelled
    dsimp only at hsession hcancelled
    rw [hsink sink h] at hsession
    refine ⟨after, hask, ?_, ?_, fun hs => ?_, ?_⟩
    · rw [hsession]
      exact ⟨.refl _ _, rfl⟩
    · rw [(of_cancelling hadded).2, reports_append]
      rfl
    · rw [hcancelled, hs, Bool.true_or]
    · intro other hother e he hcancels
      obtain rfl := Option.some.inj (h.symm.trans hother)
      obtain rfl := List.mem_singleton.mp he
      rw [hcancelled, hcancels, Bool.or_true]

theorem exec_tells (file : Path) (found : List Diagnostic.Event) (s : State) :
    ∃ after, exec (forM found (Diagnostic.Event.tell file p.report)) s = (.ok (), after) ∧
      p.Told s after (taken found) := by
  induction found generalizing s with
  | nil => exact ⟨s, rfl, .of_logged (.refl _)⟩
  | cons e found ih =>
    have hfirst : ∃ middle, exec (e.tell file p.report) s = (.ok (), middle) ∧
        p.Told s middle e.diagnostic?.toList := by
      have hnote := Told.of_logged (p := p) (Diagnostic.onlyLogs_note file e s.session)
      cases e with
      | reported d => exact exec_report hsink d s
      | restarted => exact ⟨_, exec_liftSession (Diagnostic.Event.note file .restarted) s, hnote⟩
      | refused cause =>
        exact ⟨_, exec_liftSession (Diagnostic.Event.note file (.refused cause)) s, hnote⟩
    obtain ⟨middle, htell, htold⟩ := hfirst
    obtain ⟨after, hrest, htold'⟩ := ih middle
    rw [List.forM_cons, exec_bind_ok htell, taken_cons]
    exact ⟨after, hrest, htold.trans htold'⟩

/-- Looking at the diagnostics file hands on what is found. -/
theorem exec_watch (file : Path) (look : Diagnostic.Tail.Look) (w : Watch) (s : State) :
    ∃ after,
      exec (p.watch file look w) s =
        (.ok { w with
          tail := (look (s.session.files.content? file) w.tail).1
          diagnostics := w.diagnostics ++ taken (look (s.session.files.content? file) w.tail).2 },
          after) ∧
      p.Told s after (taken (look (s.session.files.content? file) w.tail).2) := by
  obtain ⟨after, htells, htold⟩ :=
    exec_tells hsink file (look (s.session.files.content? file) w.tail).2 s
  refine ⟨after, ?_, htold⟩
  have hcontent : exec (liftSession (Diagnostic.contentOf file)) s =
      (.ok (s.session.files.content? file), s) := rfl
  rw [watch_eq, exec_bind_ok hcontent, exec_bind_ok htells]
  rfl

end Sink

theorem exec_onLine (isError : Bool) (line : Text) (w : Watch) (s : State) :
    ∃ session, Session.LoggedFrom s.session session ∧ exec (onLine isError line w) s =
      (.ok (if isError then { w with errors := w.errors ++ [line] } else w),
        { s with session }) := by
  cases isError with
  | true => exact ⟨_, Session.loggedFrom_log .warn (utf8 "process") line s.session, rfl⟩
  | false => exact ⟨_, Session.loggedFrom_log .debug (utf8 "process") line s.session, rfl⟩

/-- A watch over a file of a process. The process has been launched in one state and has written
some lines to its error stream; but for the log, the files are as the process left them. -/
structure Watches (p : Plan) (file : Path) (start : State) (errors : List Text) (fs : FileSystem)
    (w : Watch) (s : State) : Prop where
  logged : LoggedAt start.session.logPlaces fs s.session.files
  logPlaces : s.session.logPlaces = start.session.logPlaces
  avoids : Avoids start.session.logPlaces file fs
  reports : reports s.events = reports start.events ++ w.diagnostics
  heard : p.Heard w.diagnostics s
  errors : w.errors = errors

/-- A watch over a file that a process adds to. What was handed on comes from the lines that were
complete at the last look. -/
structure Follows (p : Plan) (file : Path) (start : State) (errors : List Text) (fs : FileSystem)
    (w : Watch) (s : State) : Prop extends Watches p file start errors fs w s where
  looked : ∃ before, Extends before (fs.content? file) ∧ w.tail = reached (before.getD []) ∧
    w.diagnostics = taken (events (Lines.complete (before.getD [])))

variable {p : Plan} {file : Path} {start s : State} {errors : List Text} {fs : FileSystem}
  {w : Watch}

theorem Watches.content?_eq (h : Watches p file start errors fs w s) :
    s.session.files.content? file = fs.content? file :=
  h.logged.content?_eq h.avoids

/-- The log is written while the watch goes on. -/
theorem Watches.log (h : Watches p file start errors fs w s) {session : Session}
    (hlog : Session.LoggedFrom s.session session) :
    Watches p file start errors fs w { s with session } where
  logged := h.logged.trans (h.logPlaces ▸ hlog.files)
  logPlaces := hlog.logPlaces.trans h.logPlaces
  avoids := h.avoids
  reports := h.reports
  heard := h.heard
  errors := h.errors

/-- Diagnostics are handed on while the watch goes on. -/
theorem Watches.told (h : Watches p file start errors fs w s) {after : State}
    {ds : List Diagnostic} (htold : p.Told s after ds) (tail : Diagnostic.Tail) :
    Watches p file start errors fs { w with tail, diagnostics := w.diagnostics ++ ds } after where
  logged := (h.log htold.logged).logged
  logPlaces := (h.log htold.logged).logPlaces
  avoids := h.avoids
  reports := by rw [htold.reports, h.reports, List.append_assoc]
  heard := h.heard.append htold.cancelled htold.heard
  errors := h.errors

namespace Follows

variable (h : Follows p file start errors fs w s)
include h

theorem log {session : Session} (hlog : Session.LoggedFrom s.session session) :
    Follows p file start errors fs w { s with session } where
  toWatches := h.toWatches.log hlog
  looked := h.looked

theorem line (isError : Bool) (text : Text) :
    ∃ w' s', exec (onLine isError text w) s = (.ok w', s') ∧
      Follows p file start (errors ++ Run.errorLines [.line isError text]) fs w' s' := by
  obtain ⟨session, hlog, hexec⟩ := exec_onLine isError text w s
  refine ⟨_, _, hexec, ?_⟩
  have hlogged := h.log hlog
  cases isError with
  | true => exact { hlogged with errors := congrArg (· ++ [text]) h.errors }
  | false => simpa [Run.errorLines] using hlogged

theorem cancel : ∃ s', exec Build.cancel s = (.ok (), s') ∧ Follows p file start errors fs w s' := by
  have hsession : (exec Build.cancel s).2.session = s.session := by
    change (if s.cancelled then s else
      { s with cancelled := true, events := s.events ++ [.cancelled] }).session = _
    split <;> rfl
  obtain ⟨after, rest, hexec, hadded⟩ := exec_cancel s
  rw [hexec] at hsession
  dsimp only at hsession
  obtain ⟨-, hreports⟩ := of_cancelling hadded
  have hstays : s.cancelled = true → after.cancelled = true := by
    intro hs
    rw [hadded.cancelled, hs, cancelledAfter, Bool.true_or]
  refine ⟨after, hexec, ?_⟩
  exact
    { logged := hsession ▸ h.logged
      logPlaces := hsession ▸ h.logPlaces
      avoids := h.avoids
      reports := hreports.trans h.reports
      heard := fun sink hsink d hd hcancels => hstays (h.heard sink hsink d hd hcancels)
      errors := h.errors
      looked := h.looked }

/-- The process adds to the file. -/
theorem change {edit : FileSystem → FileSystem}
    (hextends : Extends (s.session.files.content? file) ((edit s.session.files).content? file))
    (havoids : Avoids start.session.logPlaces file (edit s.session.files)) :
    ∃ s', exec (changeFiles edit) s = (.ok (), s') ∧
      Follows p file start errors (edit s.session.files) w s' := by
  refine ⟨_, exec_changeFiles edit s, ?_⟩
  obtain ⟨before, hbefore, htail, hdiagnostics⟩ := h.looked
  rw [h.content?_eq] at hextends
  exact
    { logged := .refl _ _
      logPlaces := h.logPlaces
      avoids := havoids
      reports := h.reports
      heard := h.heard
      errors := h.errors
      looked := ⟨before, List.IsPrefix.trans hbefore hextends, htail, hdiagnostics⟩ }

section Looks

variable (hsink : ∀ sink ∈ p.collaborators.diagnostics, ∀ d fs, (sink d fs).change fs = fs)
include hsink

/-- A look hands on the records of the lines that have become complete. -/
theorem poll :
    ∃ w' s', exec (p.watch file Diagnostic.Tail.poll w) s = (.ok w', s') ∧
      Follows p file start errors fs w' s' := by
  obtain ⟨before, hbefore, htail, hdiagnostics⟩ := h.looked
  obtain ⟨lines, hpoll, hcomplete⟩ := Diagnostic.Tail.poll_reached hbefore
  obtain ⟨after, hexec, htold⟩ := exec_watch hsink file Diagnostic.Tail.poll w s
  rw [h.content?_eq, htail, hpoll] at hexec htold
  refine ⟨_, after, hexec, h.toWatches.told htold _, fs.content? file, List.prefix_rfl, rfl, ?_⟩
  rw [hcomplete, events_append, taken_append, hdiagnostics]

/-- However the looks at the file fall between the steps of a process that adds to it, the watch
goes on to the end. -/
theorem play {steps : List Run.Step}
    (hsteps : Run.AddsTo file start.session.logPlaces steps fs) :
    ∃ w' s' fs',
      exec (Build.play onLine (p.watch file Diagnostic.Tail.poll) steps w) s = (.ok w', s') ∧
      Follows p file start (errors ++ Run.errorLines steps) fs' w' s' := by
  -- A change moves the file and leaves the watch behind; a look catches up. Both keep the invariant.
  induction steps generalizing errors fs w s with
  | nil => exact ⟨w, s, fs, rfl, by simpa [Run.errorLines] using h⟩
  | cons step steps ih =>
    have herrors : errors ++ Run.errorLines (step :: steps) =
        (errors ++ Run.errorLines [step]) ++ Run.errorLines steps := by
      rw [List.append_assoc, Run.errorLines, Run.errorLines, Run.errorLines,
        ← List.filterMap_append]
      rfl
    rw [herrors]
    cases step with
    | line isError text =>
      obtain ⟨w', s', hexec, hline⟩ := h.line isError text
      rw [Build.play, exec_bind_ok hexec]
      exact ih hline hsteps
    | change edit =>
      obtain ⟨hextends, havoids, hrest⟩ := hsteps _ h.logged
      obtain ⟨s', hexec, hchange⟩ := h.change hextends havoids
      rw [Build.play, exec_bind_ok hexec]
      exact ih (by simpa [Run.errorLines] using hchange) hrest
    | log level message =>
      have hlog := h.log (Session.loggedFrom_log level (utf8 "process") message s.session)
      rw [Build.play, Build.log, exec_bind_ok (exec_liftSession _ s)]
      exact ih (by simpa [Run.errorLines] using hlog) hsteps
    | poll =>
      obtain ⟨w', s', hexec, hpoll⟩ := h.poll hsink
      rw [Build.play, exec_bind_ok hexec]
      exact ih (by simpa [Run.errorLines] using hpoll) hsteps
    | cancel =>
      obtain ⟨s', hexec, hcancel⟩ := h.cancel
      rw [Build.play, exec_bind_ok hexec]
      exact ih (by simpa [Run.errorLines] using hcancel) hsteps

/-- The last look hands on what is left: all together are what one reading of the file finds. -/
theorem finish :
    ∃ w' s', exec (p.watch file Diagnostic.Tail.finish w) s = (.ok w', s') ∧
      Watches p file start errors fs w' s' ∧
      w'.diagnostics = reading ((fs.content? file).getD []) ∧ w.diagnostics <+: w'.diagnostics := by
  obtain ⟨before, hbefore, htail, hdiagnostics⟩ := h.looked
  obtain ⟨lines, hevents, hcomplete, -⟩ := Diagnostic.Tail.finish_reached hbefore
  obtain ⟨after, hexec, htold⟩ := exec_watch hsink file Diagnostic.Tail.finish w s
  rw [h.content?_eq, htail, hevents] at hexec htold
  refine ⟨_, after, hexec, h.toWatches.told htold _, ?_, List.prefix_append _ _⟩
  rw [← taken_events_complete_rest, hcomplete, events_append, taken_append, hdiagnostics]

end Looks

end Follows

end Plan

end NativeBuild
