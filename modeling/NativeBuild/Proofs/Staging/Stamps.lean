import NativeBuild.Proofs.Checksum
import NativeBuild.Proofs.Files.Rewriting
import NativeBuild.Proofs.Staging.Policy

/-!
# Stamps from call to call

Stamping a cache leaves the stamp of the command line as the first line of a file, whatever stood
there before. So the next call compares the stamps of two command lines: it leaves everything alone
if the command line is the same, and reports a change whenever the stamps tell the two apart.
-/
namespace NativeBuild

namespace Staging

open FileSystem

variable {cache : Path} {s s' : Session} {commandLine : Text}

/-- A file can be read, and a text is its first line. -/
def FirstLine (p : Path) (line : Text) (fs : FileSystem) : Prop :=
  ∃ content, fs.read p = .ok content ∧ content.takeWhile (· != Lines.lineFeed) = line

theorem FirstLine.lastStamp_eq {line : Text} {fs : FileSystem}
    (h : FirstLine (Path.join cache stampFile) line fs) : lastStamp fs cache = line := by
  obtain ⟨content, hread, hline⟩ := h
  rw [lastStamp, hread]
  exact hline

/-- A last stamp that is not empty is the first line of a file. -/
theorem firstLine_of_lastStamp {line : Text} {fs : FileSystem} (h : lastStamp fs cache = line)
    (hline : line ≠ []) : FirstLine (Path.join cache stampFile) line fs := by
  unfold lastStamp at h
  cases hread : fs.read (Path.join cache stampFile) with
  | ok content =>
    rw [hread] at h
    exact ⟨content, hread, h⟩
  | error e =>
    rw [hread] at h
    exact absurd h.symm hline

theorem firstLine_of_content {p : Path} {line rest : Text} {fs : FileSystem}
    (h : fs.content? p = some (line ++ Lines.lineFeed :: rest)) (hline : Lines.lineFeed ∉ line) :
    FirstLine p line fs := by
  unfold content? at h
  cases hread : fs.read p with
  | error e =>
    rw [hread] at h
    cases h
  | ok content =>
    rw [hread] at h
    obtain rfl := Option.some.inj h
    refine ⟨_, hread, ?_⟩
    rw [List.takeWhile_append_of_pos, List.takeWhile_cons_of_neg (by simp), List.append_nil]
    intro b hb
    rw [bne_iff_ne]
    rintro rfl
    exact hline hb

/-- What one call does: it succeeds, it reports a change exactly when the last stamp is another
one, and it leaves the stamp of its command line on the first line. -/
structure Stamps (cache : Path) (commandLine : Text) (s : Session) (changed : Bool) (s' : Session) :
    Prop where
  run : ((stamp cache commandLine).run s).run = (.ok changed, s')
  opens : Opens s'.logPlaces (Path.join cache stampFile) s'.files
  firstLine : FirstLine (Path.join cache stampFile) (Checksum.stamp commandLine) s'.files
  changed_iff : changed = true ↔ lastStamp s.files cache ≠ Checksum.stamp commandLine
  same : changed = false → s' = s

/-- A call with the command line of the last stamp. -/
theorem stamps_of_same (h : Opens s.logPlaces (Path.join cache stampFile) s.files)
    (hlast : lastStamp s.files cache = Checksum.stamp commandLine) :
    Stamps cache commandLine s false s where
  run := by
    unfold stamp
    rw [run_get_bind]
    dsimp only
    rw [if_pos hlast]
    rfl
  opens := h
  firstLine := by
    refine firstLine_of_lastStamp hlast fun hnil => ?_
    have hlength := Checksum.length_stamp commandLine
    rw [hnil] at hlength
    cases hlength
  changed_iff := by simp [hlast]
  same _ := rfl

/-- A call with another command line, as far as stamps tell. -/
theorem exists_stamps_of_other (h : Opens s.logPlaces (Path.join cache stampFile) s.files)
    (hlast : lastStamp s.files cache ≠ Checksum.stamp commandLine) :
    ∃ s', Stamps cache commandLine s true s' := by
  obtain ⟨at_, fs', hwrite, hopens, hcontent⟩ :=
    FileAction.run_write_of_opens h (Checksum.stamp commandLine ++ [Lines.lineFeed])
  let message := if lastStamp s.files cache = [] then
      utf8 "Recorded generator argument stamp " ++ Checksum.stamp commandLine
    else utf8 "Generator arguments changed (stamp " ++ lastStamp s.files cache ++ utf8 " -> "
      ++ Checksum.stamp commandLine ++ utf8 ")"
  let written : Session := { s with files := fs' }
  have hopened : Opens written.logPlaces (Path.join cache stampFile) written.files := hopens
  have hlog := Session.loggedFrom_log .debug (utf8 "staging") message written
  have hrun : ((stamp cache commandLine).run s).run =
      (.ok true, ((Session.log .debug (utf8 "staging") message).run written).2) := by
    unfold stamp
    rw [run_get_bind]
    dsimp only
    rw [if_neg hlast, run_bind, run_act, show utf8 "\n" = [Lines.lineFeed] from rfl, hwrite]
    rfl
  refine ⟨_, hrun, ?_, ?_, iff_of_true rfl hlast, nofun⟩
  · rw [hlog.logPlaces]
    exact hlog.files.opens hopened
  · have hline := Checksum.lineFeed_not_mem_stamp commandLine
    rw [← hlog.files.content?_eq hopened.fresh.avoids] at hcontent
    exact firstLine_of_content hcontent hline

/-- A call where the stamp file can be written and is no log. -/
theorem exists_stamps (h : Opens s.logPlaces (Path.join cache stampFile) s.files)
    (commandLine : Text) : ∃ changed s', Stamps cache commandLine s changed s' := by
  by_cases hlast : lastStamp s.files cache = Checksum.stamp commandLine
  · exact ⟨false, s, stamps_of_same h hlast⟩
  · exact ⟨true, exists_stamps_of_other h hlast⟩

/-- Stamps a cache with some command lines, one after the other. -/
def stampAll (cache : Path) : List Text → Job (List Bool)
  | [] => return []
  | commandLine :: more => do
    let changed ← stamp cache commandLine
    let others ← stampAll cache more
    return changed :: others

/-- All calls succeed, and the last one leaves its stamp. -/
theorem run_stampAll (h : Opens s.logPlaces (Path.join cache stampFile) s.files)
    (commandLines : List Text) : ∃ answers s', ((stampAll cache commandLines).run s).run =
        (.ok answers, s') ∧ Opens s'.logPlaces (Path.join cache stampFile) s'.files ∧
      ∀ last ∈ commandLines.getLast?,
        FirstLine (Path.join cache stampFile) (Checksum.stamp last) s'.files := by
  induction commandLines generalizing s with
  | nil => exact ⟨[], s, rfl, h, by simp⟩
  | cons commandLine more ih =>
    obtain ⟨changed, between, hstamps⟩ := exists_stamps h commandLine
    obtain ⟨answers, s', hrun, hopens, hlast⟩ := ih hstamps.opens
    refine ⟨changed :: answers, s', ?_, hopens, ?_⟩
    · rw [stampAll, run_bind_ok hstamps.run, run_bind_ok hrun]
      rfl
    · cases more with
      | nil =>
        -- Nothing is stamped behind the first command line, so its line is still there.
        obtain ⟨-, rfl⟩ := Prod.mk.inj hrun
        intro last hmem
        obtain rfl := Option.some.inj hmem
        exact hstamps.firstLine
      | cons other more => exact fun last hmem => hlast last (by simpa using hmem)

/-- Any command lines have been stamped, `last` at the end, and one more is stamped. Every call
succeeds and leaves its stamp on the first line. The call reports a change where the command line
has another length, modulo `2 ^ 32`, or differs from `last` within four bytes in a row; for `last`
itself it reports none and changes nothing. -/
theorem stamp_tells_changes (h : Opens s.logPlaces (Path.join cache stampFile) s.files)
    (earlier : List Text) (last commandLine : Text) : ∃ answers before changed after,
      ((stampAll cache (earlier ++ [last])).run s).run = (.ok answers, before) ∧
      ((stamp cache commandLine).run before).run = (.ok changed, after) ∧
      FirstLine (Path.join cache stampFile) (Checksum.stamp last) before.files ∧
      FirstLine (Path.join cache stampFile) (Checksum.stamp commandLine) after.files ∧
      (last.length % 2 ^ 32 ≠ commandLine.length % 2 ^ 32 ∨
        Checksum.DiffersWithin 4 last commandLine → changed = true) ∧
      (last = commandLine → changed = false ∧ after = before) := by
  obtain ⟨answers, before, hrun, hopens, hlast⟩ := run_stampAll h (earlier ++ [last])
  obtain ⟨changed, after, hstamps⟩ := exists_stamps hopens commandLine
  have hfirst := hlast last (by simp)
  refine ⟨answers, before, changed, after, hrun, hstamps.run, hfirst, hstamps.firstLine, ?_, ?_⟩
  · intro hdiffers
    rw [hstamps.changed_iff, hfirst.lastStamp_eq]
    exact Checksum.stamp_ne hdiffers
  · rintro rfl
    have hsame : changed = false := by
      rw [← Bool.not_eq_true, hstamps.changed_iff, hfirst.lastStamp_eq]
      exact not_not_intro rfl
    exact ⟨hsame, hstamps.same hsame⟩

/-- A cache whose stamp file is a link to a file with two lines of its own. -/
def linkedStamp : Session where
  files := { entries := [([utf8 "c"], .directory 0o755),
    ([utf8 "c", stampFile], .link (utf8 "../s")), ([utf8 "s"], .file 0o644 (utf8 "old\nmore"))] }

/-- Two command lines of one length that differ in two bytes in a row. -/
theorem stamp_tells_changes_of_linkedStamp :
    Opens linkedStamp.logPlaces (Path.join (utf8 "/c") stampFile) linkedStamp.files ∧
      Checksum.DiffersWithin 4 (utf8 "g --x=1") (utf8 "g --y:1") ∧
      ∃ answers before changed after,
        ((stampAll (utf8 "/c") ([] ++ [utf8 "g --x=1"])).run linkedStamp).run =
          (.ok answers, before) ∧
        ((stamp (utf8 "/c") (utf8 "g --y:1")).run before).run = (.ok changed, after) ∧
        FirstLine (Path.join (utf8 "/c") stampFile) (Checksum.stamp (utf8 "g --x=1"))
          before.files ∧
        FirstLine (Path.join (utf8 "/c") stampFile) (Checksum.stamp (utf8 "g --y:1"))
          after.files ∧
        ((utf8 "g --x=1").length % 2 ^ 32 ≠ (utf8 "g --y:1").length % 2 ^ 32 ∨
          Checksum.DiffersWithin 4 (utf8 "g --x=1") (utf8 "g --y:1") → changed = true) ∧
        (utf8 "g --x=1" = utf8 "g --y:1" → changed = false ∧ after = before) := by
  have hopens : Opens linkedStamp.logPlaces (Path.join (utf8 "/c") stampFile)
      linkedStamp.files := by
    constructor
    · exact ⟨[utf8 "c", stampFile], rfl⟩
    · exact ⟨.entry [utf8 "s"] (.file 0o644 (utf8 "old\nmore")), rfl, by decide +kernel⟩
  have hdiffers : Checksum.DiffersWithin 4 (utf8 "g --x=1") (utf8 "g --y:1") :=
    ⟨utf8 "g --", utf8 "x=", utf8 "y:", utf8 "1", by decide +kernel⟩
  exact ⟨hopens, hdiffers, stamp_tells_changes hopens [] (utf8 "g --x=1") (utf8 "g --y:1")⟩

end Staging

end NativeBuild
