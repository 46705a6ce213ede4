import NativeBuild.Session
import NativeBuild.Proofs.Log.FileSink

/-!
# What logging changes

A file sink writes to the place where its file was opened, and only as long as a file stands there.
So a record that is logged changes nothing but the content of the files that sinks have open: no
entry comes or goes, none changes its kind or its permission bits, and the sinks keep their places.
-/
namespace NativeBuild

namespace FileSystem

/-- One file system is the other, but for the content of the files at some places. -/
structure LoggedAt (places : List Location) (before after : FileSystem) : Prop where
  here : after.here = before.here
  locations : after.entries.map (·.1) = before.entries.map (·.1)
  get?_eq_or : ∀ l, after.get? l = before.get? l ∨
    l ∈ places ∧ ∃ mode old new,
      before.get? l = some (.file mode old) ∧ after.get? l = some (.file mode new)

variable {places : List Location} {fs fs' fs'' : FileSystem} {l : Location}

theorem LoggedAt.refl (places : List Location) (fs : FileSystem) : LoggedAt places fs fs :=
  ⟨rfl, rfl, fun _ => .inl rfl⟩

theorem LoggedAt.trans (h : LoggedAt places fs fs') (h' : LoggedAt places fs' fs'') :
    LoggedAt places fs fs'' where
  here := h'.here.trans h.here
  locations := h'.locations.trans h.locations
  get?_eq_or l := by
    obtain hsame' | ⟨hmem, mode', old', new', hbefore', hafter'⟩ := h'.get?_eq_or l
    · rw [hsame']
      exact h.get?_eq_or l
    · obtain hsame | ⟨-, mode, old, new, hbefore, hafter⟩ := h.get?_eq_or l
      · exact .inr ⟨hmem, mode', old', new', hsame ▸ hbefore', hafter'⟩
      · rw [hafter] at hbefore'
        cases hbefore'
        exact .inr ⟨hmem, _, old, new', hbefore, hafter'⟩

/-- Elsewhere nothing changes at all. -/
theorem LoggedAt.get?_eq (h : LoggedAt places fs fs') (hl : l ∉ places) :
    fs'.get? l = fs.get? l :=
  (h.get?_eq_or l).resolve_right fun hlog => hl hlog.1

/-- An entry that is listed is replaced in its place. -/
theorem map_fst_place {entries : List (Location × Entry)} {e : Entry}
    (h : find? l entries = some e) (entry : Entry) :
    (place l entry entries).map (·.1) = entries.map (·.1) := by
  induction entries with
  | nil => cases h
  | cons head rest ih =>
    obtain ⟨l', e'⟩ := head
    rw [place]
    split
    · rfl
    · next hne =>
      rw [find?, if_neg hne] at h
      rw [List.map_cons, List.map_cons, ih h]

/-- A file that is rewritten where a sink has it open. -/
theorem LoggedAt.set {mode : ℕ} {old : Text} (hl : l ∈ places)
    (hfile : fs.get? l = some (.file mode old)) (new : Text) :
    LoggedAt places fs (fs.set l (.file mode new)) := by
  have hne : l ≠ [] := by
    rintro rfl
    cases hfile
  refine ⟨rfl, ?_, fun l' => ?_⟩
  · rw [get?, if_neg hne] at hfile
    exact map_fst_place hfile _
  · by_cases hl' : l' = []
    · subst hl'
      exact .inl rfl
    rw [get?_set _ _ _ _ hl']
    split
    · next heq =>
      subst heq
      exact .inr ⟨hl, mode, old, new, hfile, rfl⟩
    · exact .inl rfl

end FileSystem

open FileSystem

namespace Log

/-- The place of a sink's file, if it has one open. -/
def Sink.place? : Sink → Option Location
  | .file sink => sink.place
  | _ => none

namespace FileSink

variable {places : List Location} {sink : FileSink}

theorem loggedAt_flush (h : ∀ l ∈ sink.place, l ∈ places) (fs : FileSystem) :
    LoggedAt places fs (sink.flush fs).2 ∧ (sink.flush fs).1.place = sink.place := by
  unfold flush
  dsimp only
  split
  · exact ⟨.refl _ fs, rfl⟩
  · next l hplace =>
    split
    · next mode old hfile =>
      refine ⟨?_, rfl⟩
      dsimp only
      split
      · exact .refl _ fs
      · exact .set (h l hplace) hfile _
    · exact ⟨.refl _ fs, rfl⟩

theorem loggedAt_put (h : ∀ l ∈ sink.place, l ∈ places) (piece : Text) (fs : FileSystem) :
    LoggedAt places fs (sink.put piece fs).2 ∧ (sink.put piece fs).1.place = sink.place := by
  unfold put
  dsimp only
  split
  · exact @loggedAt_flush places { sink with pending := sink.pending ++ piece } h fs
  · exact ⟨.refl _ fs, rfl⟩

theorem loggedAt_write (h : ∀ l ∈ sink.place, l ∈ places) (r : Record) (fs : FileSystem) :
    LoggedAt places fs (sink.write r fs).2 ∧ (sink.write r fs).1.place = sink.place := by
  unfold write
  split
  · exact ⟨.refl _ fs, rfl⟩
  obtain ⟨hrecord, hplace⟩ := loggedAt_put h (r.render sink.format) fs
  obtain ⟨hend, hplace'⟩ := loggedAt_put (hplace ▸ h) (utf8 "\n")
    (sink.put (r.render sink.format) fs).2
  have hwritten := hrecord.trans hend
  dsimp only
  split
  · obtain ⟨hflushed, hplace''⟩ := loggedAt_flush (hplace' ▸ hplace ▸ h)
      ((sink.put (r.render sink.format) fs).1.put (utf8 "\n")
        (sink.put (r.render sink.format) fs).2).2
    exact ⟨hwritten.trans hflushed, hplace''.trans (hplace'.trans hplace)⟩
  · exact ⟨hwritten, hplace'.trans hplace⟩

end FileSink

end Log

namespace Session

/-- The places of the files that the logger's sinks have open. -/
def logPlaces (s : Session) : List Location := s.logger.sinks.filterMap Log.Sink.place?

/-- A session is the other, but for what the sinks with open files have written. -/
structure LoggedFrom (before after : Session) : Prop where
  files : LoggedAt before.logPlaces before.files after.files
  logPlaces : after.logPlaces = before.logPlaces

theorem LoggedFrom.refl (s : Session) : LoggedFrom s s := ⟨.refl _ _, rfl⟩

theorem LoggedFrom.trans {s s' s'' : Session} (h : LoggedFrom s s') (h' : LoggedFrom s' s'') :
    LoggedFrom s s'' :=
  ⟨h.files.trans (h.logPlaces ▸ h'.files), h'.logPlaces.trans h.logPlaces⟩

theorem loggedAt_pass (r : Log.Record) (s : Session) (sink : Log.Sink) {places : List Location}
    (h : ∀ l ∈ sink.place?, l ∈ places) :
    LoggedAt places s.files (pass r s sink).2.files ∧ (pass r s sink).1.place? = sink.place? := by
  cases sink with
  | memory => exact ⟨.refl _ _, rfl⟩
  | console format => exact ⟨.refl _ _, rfl⟩
  | file sink => exact Log.FileSink.loggedAt_write h r s.files

theorem loggedAt_passAll (r : Log.Record) (s : Session) (sinks : List Log.Sink)
    {places : List Location} (h : ∀ l ∈ sinks.filterMap Log.Sink.place?, l ∈ places) :
    LoggedAt places s.files (passAll r s sinks).2.files ∧
      (passAll r s sinks).1.filterMap Log.Sink.place? = sinks.filterMap Log.Sink.place? := by
  induction sinks generalizing s with
  | nil => exact ⟨.refl _ _, rfl⟩
  | cons sink sinks ih =>
    have hfirst : ∀ l ∈ sink.place?, l ∈ places := fun l hl =>
      h l (List.mem_filterMap.mpr ⟨sink, by simp, hl⟩)
    have hrest : ∀ l ∈ sinks.filterMap Log.Sink.place?, l ∈ places := by
      intro l hl
      obtain ⟨other, hother, hl⟩ := List.mem_filterMap.mp hl
      exact h l (List.mem_filterMap.mpr ⟨other, by simp [hother], hl⟩)
    obtain ⟨hpass, hplace⟩ := loggedAt_pass r s sink hfirst
    obtain ⟨hpassAll, hplaces⟩ := ih (pass r s sink).2 hrest
    refine ⟨hpass.trans hpassAll, ?_⟩
    rw [passAll]
    dsimp only
    rw [List.filterMap_cons, List.filterMap_cons, hplace, hplaces]

theorem run_bind {α β : Type} (action : SessionM α) (f : α → SessionM β) (s : Session) :
    (action >>= f).run s = (f (action.run s).1).run (action.run s).2 := rfl

theorem run_get_bind {α : Type} (f : Session → SessionM α) (s : Session) :
    (get >>= f).run s = (f s).run s := rfl

theorem run_log (level : Log.Level) (module message : Text) (s : Session) :
    ((log level module message).run s).2 =
      if s.logger.admits level module then
        { (passAll ⟨level, module, message, s.time⟩ s s.logger.sinks).2 with
          logger := { s.logger with
            sinks := (passAll ⟨level, module, message, s.time⟩ s s.logger.sinks).1 } }
      else s := rfl

theorem loggedFrom_log (level : Log.Level) (module message : Text) (s : Session) :
    LoggedFrom s ((log level module message).run s).2 := by
  rw [run_log]
  split
  · have hopen : ∀ l ∈ s.logger.sinks.filterMap Log.Sink.place?, l ∈ s.logPlaces := fun _ hl => hl
    obtain ⟨hfiles, hplaces⟩ := loggedAt_passAll ⟨level, module, message, s.time⟩ s
      s.logger.sinks hopen
    exact ⟨hfiles, hplaces⟩
  · exact .refl s

theorem out_passAll (r : Log.Record) (s : Session) (sinks : List Log.Sink) :
    (passAll r s sinks).2.out = s.out := by
  induction sinks generalizing s with
  | nil => rfl
  | cons sink sinks ih =>
    have hpass : (pass r s sink).2.out = s.out := by cases sink <;> rfl
    exact (ih (pass r s sink).2).trans hpass

/-- Nothing of what is logged is printed. -/
theorem out_log (level : Log.Level) (module message : Text) (s : Session) :
    ((log level module message).run s).2.out = s.out := by
  rw [run_log]
  split
  · exact out_passAll ..
  · rfl

end Session

end NativeBuild
