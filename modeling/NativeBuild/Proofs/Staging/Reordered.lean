import NativeBuild.Proofs.Files.Reordered
import NativeBuild.Proofs.Staging.Policy

/-!
# Sessions whose files are enumerated in another order

What a session logs, writes and stamps depends on what paths lead to, and on its log. So two sessions
that differ in the order of their files only are left alike by a record that is logged, by an attempt
to act on files and by a stamp.
-/
namespace NativeBuild

open FileSystem

namespace Log.FileSink

variable {fs fs' : FileSystem}

/-- A sink hands on what it has collected alike. -/
theorem sameUpTo_flush (sink : FileSink) (h : Reordered fs fs') :
    SameUpTo Reordered (sink.flush fs) (sink.flush fs') := by
  unfold flush
  cases sink.place with
  | none => exact ⟨rfl, h⟩
  | some at_ =>
    dsimp only
    rw [h.get?_eq]
    split
    · refine ⟨rfl, ?_⟩
      dsimp only
      split
      · exact h
      · exact h.set _ _
    · exact ⟨rfl, h⟩

theorem sameUpTo_put (sink : FileSink) (piece : Text) (h : Reordered fs fs') :
    SameUpTo Reordered (sink.put piece fs) (sink.put piece fs') := by
  unfold put
  dsimp only
  split
  · exact sameUpTo_flush _ h
  · exact ⟨rfl, h⟩

theorem sameUpTo_write (sink : FileSink) (r : Record) (h : Reordered fs fs') :
    SameUpTo Reordered (sink.write r fs) (sink.write r fs') := by
  unfold write
  split
  · exact ⟨rfl, h⟩
  have hrecord := sameUpTo_put sink (r.render sink.format) h
  have hend := sameUpTo_put (sink.put (r.render sink.format) fs).1 (utf8 "\n") hrecord.states
  dsimp only
  rw [hrecord.result]
  split
  · rw [hend.result]
    exact sameUpTo_flush _ hend.states
  · exact hend

end Log.FileSink

namespace Session

/-- A session whose files are the other's in another order, and that is the other in all else. -/
def Reordered (s s' : Session) : Prop :=
  ∃ files, FileSystem.Reordered s.files files ∧ s' = { s with files }

variable {s s' : Session}

theorem Reordered.files (h : s.Reordered s') : FileSystem.Reordered s.files s'.files := by
  obtain ⟨files, hfiles, rfl⟩ := h
  exact hfiles

theorem Reordered.here_eq (h : s.Reordered s') : s'.here = s.here := by
  unfold here
  rw [h.files.here]

/-- Each sink takes a record alike. -/
theorem sameUpTo_pass (r : Log.Record) (sink : Log.Sink) (h : s.Reordered s') :
    SameUpTo Reordered (pass r s sink) (pass r s' sink) := by
  obtain ⟨files, hfiles, rfl⟩ := h
  cases sink with
  | memory => exact ⟨rfl, files, hfiles, rfl⟩
  | console format => exact ⟨rfl, files, hfiles, rfl⟩
  | file sink =>
    have hwrite := sink.sameUpTo_write r hfiles
    exact ⟨congrArg Log.Sink.file hwrite.result, _, hwrite.states, rfl⟩

theorem sameUpTo_passAll (r : Log.Record) (sinks : List Log.Sink) (h : s.Reordered s') :
    SameUpTo Reordered (passAll r s sinks) (passAll r s' sinks) := by
  induction sinks generalizing s s' with
  | nil => exact ⟨rfl, h⟩
  | cons sink sinks ih =>
    have hpass := sameUpTo_pass r sink h
    have hrest := ih hpass.states
    refine ⟨?_, hrest.states⟩
    unfold passAll
    dsimp only
    rw [hpass.result, hrest.result]

/-- Files are acted on alike. -/
theorem Reordered.act {α : Type} {action action' : FileAction α}
    (halike : FileAction.Alike s.files s'.files action action') (h : s.Reordered s') :
    SameUpTo Reordered ((act action).run s) ((act action').run s') := by
  obtain ⟨files, hfiles, rfl⟩ := h
  exact ⟨halike.result, _, halike.files, rfl⟩

/-- A message is logged alike. -/
theorem sameUpTo_log (h : s.Reordered s') (level : Log.Level) (module message : Text) :
    SameUpTo Reordered ((log level module message).run s) ((log level module message).run s') := by
  obtain ⟨files, hfiles, hs'⟩ := h
  have hlog (t : Session) : (log level module message).run t =
      ((), if t.logger.admits level module then
        { (passAll ⟨level, module, message, t.time⟩ t t.logger.sinks).2 with
          logger := { t.logger with
            sinks := (passAll ⟨level, module, message, t.time⟩ t t.logger.sinks).1 } }
      else t) := rfl
  have hlogger : s'.logger = s.logger := by rw [hs']
  have htime : s'.time = s.time := by rw [hs']
  have hpass := sameUpTo_passAll ⟨level, module, message, s.time⟩ s.logger.sinks
    ⟨files, hfiles, hs'⟩
  rw [hlog, hlog, hlogger, htime]
  refine ⟨rfl, ?_⟩
  dsimp only
  split
  · obtain ⟨after, hafter, hrest⟩ := hpass.states
    refine ⟨after, hafter, ?_⟩
    rw [hrest, hpass.result]
  · exact ⟨files, hfiles, hs'⟩

end Session

namespace Staging

variable {s s' : Session}

/-- An attempt is refused alike. -/
theorem sameUpTo_attempt {α : Type} (tried : String) (p : Path) {action action' : FileAction α}
    (halike : FileAction.Alike s.files s'.files action action') (h : s.Reordered s') :
    SameUpTo Session.Reordered ((attempt tried p action).run s).run
      ((attempt tried p action').run s').run := by
  have hact : SameUpTo Session.Reordered (((Session.act action : SessionM _) : Job _).run s).run
      (((Session.act action' : SessionM _) : Job _).run s').run := by
    have hsession := h.act halike
    exact ⟨congrArg Except.ok hsession.result, hsession.states⟩
  refine hact.bind fun result t t' ht => ?_
  cases result with
  | ok a => exact ⟨rfl, ht⟩
  | error e => exact ⟨rfl, ht⟩

variable (h : s.Reordered s')
include h

theorem sameUpTo_ensureDirectory (p : Path) :
    SameUpTo Session.Reordered ((ensureDirectory p).run s).run ((ensureDirectory p).run s').run :=
  sameUpTo_attempt _ p (FileAction.alike_makeDirectories h.files p) h

theorem lastStamp_eq (cache : Path) : lastStamp s'.files cache = lastStamp s.files cache := by
  unfold lastStamp
  rw [h.files.read_eq]

/-- A cache is stamped alike. -/
theorem sameUpTo_stamp (cache : Path) (commandLine : Text) :
    SameUpTo Session.Reordered ((stamp cache commandLine).run s).run
      ((stamp cache commandLine).run s').run := by
  unfold stamp
  rw [run_get_bind, run_get_bind]
  dsimp only
  rw [lastStamp_eq h]
  split
  · exact ⟨rfl, h⟩
  have hwrite := FileAction.alike_write h.files (Path.join cache stampFile)
    (Checksum.stamp commandLine ++ utf8 "\n") false
  have hact := h.act hwrite
  refine SameUpTo.bind (k := fun result => _) ⟨congrArg Except.ok hact.result, hact.states⟩
    fun result t t' ht => ?_
  cases result with
  | error e => exact ⟨rfl, ht⟩
  | ok at_ =>
    have hlog := Session.sameUpTo_log ht .debug (utf8 "staging")
      (if lastStamp s.files cache = [] then
        utf8 "Recorded generator argument stamp " ++ Checksum.stamp commandLine
      else utf8 "Generator arguments changed (stamp " ++ lastStamp s.files cache ++ utf8 " -> "
        ++ Checksum.stamp commandLine ++ utf8 ")")
    exact ⟨rfl, hlog.states⟩

end Staging

end NativeBuild
