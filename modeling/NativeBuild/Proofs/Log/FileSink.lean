import NativeBuild.Log.Logger
import NativeBuild.Proofs.Files.Opening
import NativeBuild.Proofs.Lines
import NativeBuild.Proofs.Log.Record

/-!
# What a file sink writes

A sink collects what is written and hands it on in pieces of its own choice. What has reached the
file and what is still collected are together what was written, after every step. So a log that is
flushed holds the records one to a line, and each line is read back as its record.
-/
namespace NativeBuild.Log

namespace FileSink

/-- The text that was written to a sink since it was opened: first what is in the file behind what
the file held before, then what is collected. -/
structure Wrote (format : Format) (at_ : Location) (mode : ℕ) (old text : Text) (sink : FileSink)
    (fs : FileSystem) : Prop where
  format_eq : sink.format = format
  place_eq : sink.place = some at_
  parts : ∃ flushed, text = flushed ++ sink.pending ∧
    fs.get? at_ = some (.file mode (old ++ flushed)) ∧
    (sink.offset = none ∨ sink.offset = some (old ++ flushed).length)

/-- A file does not stand at the root, so what is set there is found again. -/
theorem get?_set_of_file {fs : FileSystem} {at_ : Location} {mode : ℕ} {content : Text}
    (h : fs.get? at_ = some (.file mode content)) (entry : Entry) :
    (fs.set at_ entry).get? at_ = some entry := by
  have hne : at_ ≠ [] := by
    rintro rfl
    cases h
  rw [FileSystem.get?_set _ _ _ _ hne, if_pos rfl]

/-- A piece that is written at the end of a file is appended. -/
theorem overwrite_length (piece old : Text) : overwrite old.length piece old = old ++ piece := by
  simp [overwrite]

namespace Wrote

variable {format : Format} {at_ : Location} {mode : ℕ} {old text : Text} {sink : FileSink}
  {fs : FileSystem}

theorem flush (h : Wrote format at_ mode old text sink fs) :
    Wrote format at_ mode old text (sink.flush fs).1 (sink.flush fs).2 ∧
      (sink.flush fs).2.get? at_ = some (.file mode (old ++ text)) := by
  obtain ⟨hformat, hplace, flushed, rfl, hfile, hoffset⟩ := h
  have hafter : (sink.flush fs).2.get? at_ =
      some (.file mode (old ++ (flushed ++ sink.pending))) := by
    by_cases hpending : sink.pending = []
    · simp only [FileSink.flush, hplace, hfile, hpending, if_true, List.append_nil]
    obtain hoffset | hoffset := hoffset
    · simp only [FileSink.flush, hplace, hfile, hoffset, if_neg hpending]
      rw [get?_set_of_file hfile, List.append_assoc]
    · simp only [FileSink.flush, hplace, hfile, hoffset, if_neg hpending]
      rw [get?_set_of_file hfile, overwrite_length, List.append_assoc]
  have hsink : (sink.flush fs).1 =
      { sink with pending := [], offset := sink.offset.map (· + sink.pending.length) } := by
    simp only [FileSink.flush, hplace, hfile]
  refine ⟨⟨?_, ?_, flushed ++ sink.pending, ?_, hafter, ?_⟩, hafter⟩
  · rw [hsink]
    exact hformat
  · rw [hsink]
    exact hplace
  · rw [hsink, List.append_nil]
  · rw [hsink]
    obtain hoffset | hoffset := hoffset
    · simp [hoffset]
    · simp [hoffset, Nat.add_assoc]

theorem put (h : Wrote format at_ mode old text sink fs) (piece : Text) :
    Wrote format at_ mode old (text ++ piece) (sink.put piece fs).1 (sink.put piece fs).2 := by
  obtain ⟨hformat, hplace, flushed, rfl, hfile, hoffset⟩ := h
  have hfull : Wrote format at_ mode old (flushed ++ sink.pending ++ piece)
      { sink with pending := sink.pending ++ piece } fs :=
    ⟨hformat, hplace, flushed, List.append_assoc .., hfile, hoffset⟩
  unfold FileSink.put
  dsimp only
  split
  · exact hfull.flush.1
  · exact hfull

theorem write (h : Wrote format at_ mode old text sink fs) (r : Record) :
    Wrote format at_ mode old (text ++ (r.render format ++ [Lines.lineFeed])) (sink.write r fs).1
      (sink.write r fs).2 := by
  have hput := (h.put (r.render format)).put [Lines.lineFeed]
  rw [List.append_assoc] at hput
  unfold FileSink.write
  rw [if_neg (by simp [h.place_eq]), h.format_eq]
  dsimp only
  split
  · exact hput.flush.1
  · exact hput

end Wrote

/-- Writes records one after the other, and flushes the sink at the end. -/
def writeAll (sink : FileSink) (records : List Record) (fs : FileSystem) : FileSink × FileSystem :=
  let written := records.foldl (fun s r => s.1.write r s.2) (sink, fs)
  written.1.flush written.2

/-- The records one to a line. -/
def linesOf (format : Format) (records : List Record) : Text :=
  records.flatMap fun r => r.render format ++ [Lines.lineFeed]

theorem Wrote.foldl {format : Format} {at_ : Location} {mode : ℕ} {old text : Text}
    {sink : FileSink} {fs : FileSystem} (h : Wrote format at_ mode old text sink fs)
    (records : List Record) :
    Wrote format at_ mode old (text ++ linesOf format records)
      (records.foldl (fun s r => s.1.write r s.2) (sink, fs)).1
      (records.foldl (fun s r => s.1.write r s.2) (sink, fs)).2 := by
  induction records generalizing text sink fs with
  | nil => rwa [linesOf, List.flatMap_nil, List.append_nil]
  | cons r records ih =>
    have hmore := ih (h.write r)
    rwa [List.append_assoc] at hmore

theorem get?_writeAll {format : Format} {at_ : Location} {mode : ℕ} {old : Text} {sink : FileSink}
    {fs : FileSystem} (h : Wrote format at_ mode old [] sink fs) (records : List Record) :
    (sink.writeAll records fs).2.get? at_ = some (.file mode (old ++ linesOf format records)) :=
  (h.foldl records).flush.2

/-- A sink that was opened has written nothing; a file that is written anew held nothing. -/
theorem wrote_of_open {p : Path} {format : Format} {appends : Bool} {fs fs' : FileSystem}
    {sink : FileSink} {at_ : Location} (h : open_ p format appends fs = (sink, fs'))
    (hplace : sink.place = some at_) :
    ∃ mode old, Wrote format at_ mode old [] sink fs' ∧ (appends = false → old = []) := by
  unfold open_ at h
  dsimp only at h
  split at h
  · next place fs₁ hopened =>
    obtain ⟨rfl, rfl⟩ := Prod.mk.inj h
    obtain rfl := Option.some.inj hplace
    cases appends with
    | true =>
      obtain ⟨mode, old, hfile⟩ := FileAction.append_ok hopened
      exact ⟨mode, old, ⟨rfl, rfl, [], rfl, hfile, .inl rfl⟩, fun h => by cases h⟩
    | false =>
      obtain ⟨mode, hfile⟩ := FileAction.write_ok hopened
      exact ⟨mode, [], ⟨rfl, rfl, [], rfl, hfile, .inr rfl⟩, fun _ => rfl⟩
  · obtain ⟨rfl, rfl⟩ := Prod.mk.inj h
    cases hplace

/-- Cutting the lines at their ends gives the records back, and nothing behind the last end. -/
theorem pieces_linesOf {format : Format} {records : List Record}
    (h : ∀ r ∈ records, Lines.lineFeed ∉ r.render format) :
    Text.pieces (· == Lines.lineFeed) (linesOf format records) =
      records.map (Record.render format) ++ [[]] := by
  induction records with
  | nil => rfl
  | cons r records ih =>
    obtain ⟨hr, hmore⟩ := List.forall_mem_cons.mp h
    have hline : ∀ b ∈ r.render format, (b == Lines.lineFeed) = false := by
      intro b hb
      rw [beq_eq_false_iff_ne]
      rintro rfl
      exact hr hb
    rw [linesOf, List.flatMap_cons, List.append_assoc, List.singleton_append,
      Text.pieces_append_cons (by simp) hline, ← linesOf, ih hmore]
    rfl

theorem count_linesOf {format : Format} {records : List Record}
    (h : ∀ r ∈ records, Lines.lineFeed ∉ r.render format) :
    (linesOf format records).count Lines.lineFeed = records.length := by
  induction records with
  | nil => rfl
  | cons r records ih =>
    obtain ⟨hr, hmore⟩ := List.forall_mem_cons.mp h
    rw [linesOf, List.flatMap_cons, ← linesOf, List.count_append, List.count_append, ih hmore,
      List.count_eq_zero_of_not_mem hr, List.count_singleton_self, List.length_cons]
    omega

/-- A log of JSON lines, once it is flushed. Behind what the file held there is one line feed for
each record, and the text before each line feed is read as the record of its place. -/
theorem jsonLines_read_back {p : Path} {appends : Bool} {fs fs' : FileSystem} {sink : FileSink}
    {at_ : Location} {records : List Record} (hopen : open_ p .json appends fs = (sink, fs'))
    (hplace : sink.place = some at_) (htimes : ∀ r ∈ records, -2 ^ 63 ≤ r.time ∧ r.time < 2 ^ 63) :
    ∃ mode old text lines, fs'.get? at_ = some (.file mode old) ∧ (appends = false → old = []) ∧
      (sink.writeAll records fs').2.get? at_ = some (.file mode (old ++ text)) ∧
      text.count 0x0A = records.length ∧
      Text.pieces (· == 0x0A) text = lines ++ [[]] ∧
      List.Forall₂ (fun line r => Json.parse line = .ok r.object) lines records := by
  obtain ⟨mode, old, hwrote, hold⟩ := wrote_of_open hopen hplace
  have hfeeds : ∀ r ∈ records, Lines.lineFeed ∉ r.render .json := fun r _ =>
    r.lineFeed_not_mem_json
  have hbefore : fs'.get? at_ = some (.file mode old) := by
    obtain ⟨-, -, flushed, hflushed, hfile, -⟩ := hwrote
    obtain ⟨rfl, -⟩ := List.append_eq_nil_iff.mp hflushed.symm
    rwa [List.append_nil] at hfile
  refine ⟨mode, old, linesOf .json records, records.map (Record.render .json), hbefore, hold,
    get?_writeAll hwrote records, count_linesOf hfeeds, pieces_linesOf hfeeds, ?_⟩
  rw [List.forall₂_map_left_iff, List.forall₂_same]
  exact fun r hr => r.parse_json (htimes r hr)

/-- Quotes, backslashes, control bytes, bytes that are no UTF-8, and the first and last times. -/
def awkwardRecords : List Record :=
  [⟨.fatal, utf8 "a\"\\b", [0x00, 0x0A, 0x1F, 0x7F, 0xFF], -2 ^ 63⟩, ⟨⟨9⟩, [], [0x0D], 2 ^ 63 - 1⟩]

theorem jsonLines_read_back_of_awkwardRecords :
    (open_ (utf8 "/log") .json false {}).1.place = some [utf8 "log"] ∧
      (∀ r ∈ awkwardRecords, -2 ^ 63 ≤ r.time ∧ r.time < 2 ^ 63) ∧
      ∃ mode old text lines,
        (open_ (utf8 "/log") .json false {}).2.get? [utf8 "log"] = some (.file mode old) ∧
        (false = false → old = []) ∧
        ((open_ (utf8 "/log") .json false {}).1.writeAll awkwardRecords
          (open_ (utf8 "/log") .json false {}).2).2.get? [utf8 "log"] =
            some (.file mode (old ++ text)) ∧
        text.count 0x0A = awkwardRecords.length ∧
        Text.pieces (· == 0x0A) text = lines ++ [[]] ∧
        List.Forall₂ (fun line r => Json.parse line = .ok r.object) lines awkwardRecords := by
  have hplace : (open_ (utf8 "/log") .json false {}).1.place = some [utf8 "log"] := by
    decide
  have htimes : ∀ r ∈ awkwardRecords, -2 ^ 63 ≤ r.time ∧ r.time < 2 ^ 63 := by decide
  exact ⟨hplace, htimes, @jsonLines_read_back (utf8 "/log") false {} _ _ _ _ rfl hplace htimes⟩

end FileSink

end NativeBuild.Log
