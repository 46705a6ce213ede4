import NativeBuild.Proofs.Lines
import NativeBuild.Subprocess

/-!
# The lines of a process

A process writes to two streams, and chunks of them are read in whatever order they come. The
splitter of a stream has delivered the complete lines of what was read of its stream and holds back
the rest. A chunk of either stream keeps this for both, so at the end each stream has been cut into
exactly the lines that it would be cut into as a whole.
-/
namespace NativeBuild

namespace Lines

/-- A text is its lines, each with its line feed, and the rest. -/
theorem closed_join (t : Text) : (closed t).flatMap (· ++ [lineFeed]) ++ rest t = t := by
  induction t with
  | nil => simp
  | cons b t ih =>
    by_cases hb : b = lineFeed
    · subst hb
      obtain ⟨hclosed, hrest⟩ := closed_lineFeed t
      simp [hclosed, hrest, ih]
    cases ht : closed t with
    | nil =>
      obtain ⟨hclosed, hrest⟩ := closed_cons_of_open hb ht
      rw [ht] at ih
      simpa [hclosed, hrest] using ih
    | cons line lines =>
      obtain ⟨hclosed, hrest⟩ := closed_cons_of_closed hb ht
      rw [ht] at ih
      simpa [hclosed, hrest] using ih

/-- No line feed is left in a line, nor in the rest. -/
theorem lineFeed_not_mem (t : Text) : (∀ line ∈ closed t, lineFeed ∉ line) ∧ lineFeed ∉ rest t := by
  induction t with
  | nil => simp
  | cons b t ih =>
    obtain ⟨ihClosed, ihRest⟩ := ih
    by_cases hb : b = lineFeed
    · subst hb
      obtain ⟨hclosed, hrest⟩ := closed_lineFeed t
      simpa [hclosed, hrest] using ⟨ihClosed, ihRest⟩
    cases ht : closed t with
    | nil =>
      obtain ⟨hclosed, hrest⟩ := closed_cons_of_open hb ht
      simpa [hclosed, hrest] using ⟨Ne.symm hb, ihRest⟩
    | cons line lines =>
      obtain ⟨hclosed, hrest⟩ := closed_cons_of_closed hb ht
      rw [ht] at ihClosed
      simpa [hclosed, hrest, Ne.symm hb] using ⟨List.forall_mem_cons.mp ihClosed, ihRest⟩

end Lines

namespace Subprocess

open Lines (Splitter complete rest all)

/-- What is of one of the two streams. -/
def part (isError : Bool) (parts : List (Bool × Text)) : List Text :=
  (parts.filter (·.1 == isError)).map (·.2)

@[simp] theorem part_nil (isError : Bool) : part isError [] = [] := rfl

@[simp] theorem part_append (isError : Bool) (ps qs : List (Bool × Text)) :
    part isError (ps ++ qs) = part isError ps ++ part isError qs := by
  simp [part]

theorem part_cons (isError isError' : Bool) (t : Text) (ps : List (Bool × Text)) :
    part isError ((isError', t) :: ps) =
      if isError' = isError then t :: part isError ps else part isError ps := by
  by_cases h : isError' = isError <;> simp [part, h]

/-- What is read of a stream, in one piece. -/
def stream (isError : Bool) (chunks : List (Bool × Text)) : Text := (part isError chunks).flatten

theorem stream_cons (isError isError' : Bool) (t : Text) (ps : List (Bool × Text)) :
    stream isError ((isError', t) :: ps) =
      if isError' = isError then t ++ stream isError ps else stream isError ps := by
  unfold stream
  rw [part_cons]
  split <;> simp

/-- A splitter delivers lines of its own stream only. -/
theorem part_label (s : Splitter) (lines : List Text) (isError : Bool) :
    part isError (s.label lines) = if s.isError = isError then lines else [] := by
  induction lines with
  | nil => simp [Splitter.label]
  | cons line lines ih =>
    rw [Splitter.label, List.map_cons, ← Splitter.label, part_cons, ih]
    split <;> rfl

section Splitter

variable {s : Splitter} {isError : Bool} {t : Text}

/-- A splitter has read a text of its stream. -/
structure HasRead (s : Splitter) (isError : Bool) (t : Text) : Prop where
  isError_eq : s.isError = isError
  pending_eq : s.pending = rest t

/-- What a splitter does with a chunk depends on all that it has read of its stream. -/
theorem HasRead.feed (h : HasRead s isError t) (chunk : Text) :
    HasRead (s.feed chunk).2 isError (t ++ chunk) ∧
      complete t ++ part isError (s.feed chunk).1 = complete (t ++ chunk) ∧
      part (!isError) (s.feed chunk).1 = [] := by
  obtain ⟨rfl, hpending⟩ := h
  have hlines : (s.feed chunk).1 = s.label (complete (rest t ++ chunk)) := by
    rw [← hpending]
    rfl
  refine ⟨⟨rfl, ?_⟩, ?_, ?_⟩
  · rw [Lines.rest_append, ← hpending]
    rfl
  · rw [hlines, part_label, if_pos rfl, ← Lines.complete_append]
  · rw [hlines, part_label, if_neg (by simp)]

/-- At the end of its stream a splitter has delivered all lines of it. -/
theorem HasRead.flush (h : HasRead s isError t) :
    complete t ++ part isError s.flush = all t ∧ part (!isError) s.flush = [] := by
  obtain ⟨rfl, hpending⟩ := h
  rw [Splitter.flush, hpending, part_label, if_pos rfl, part_label, if_neg (by simp)]
  exact ⟨rfl, rfl⟩

end Splitter

/-- The lines of a stream that were complete before the chunks are read, followed by those that are
delivered then, are all its lines. -/
theorem part_deliver {output errors : Splitter} {read read' : Text}
    (houtput : HasRead output false read) (herrors : HasRead errors true read')
    (chunks : List (Bool × Text)) :
    complete read ++ part false (deliver output errors chunks) = all (read ++ stream false chunks) ∧
      complete read' ++ part true (deliver output errors chunks)
        = all (read' ++ stream true chunks) := by
  -- A chunk moves one of the two texts on, and leaves the other splitter as it was.
  induction chunks generalizing output errors read read' with
  | nil =>
    obtain ⟨hlines, hother⟩ := houtput.flush
    obtain ⟨hlines', hother'⟩ := herrors.flush
    simp_all [deliver, stream]
  | cons head more ih =>
    obtain ⟨isError, chunk⟩ := head
    cases isError with
    | false =>
      obtain ⟨hread, hlines, hother⟩ := houtput.feed chunk
      obtain ⟨ihOutput, ihErrors⟩ := ih hread herrors
      rw [deliver, part_append, part_append, ← List.append_assoc, hlines, stream_cons, if_pos rfl,
        stream_cons, if_neg (by simp)]
      rw [show part true (output.feed chunk).1 = [] from hother, List.nil_append,
        ← List.append_assoc]
      exact ⟨ihOutput, ihErrors⟩
    | true =>
      obtain ⟨hread, hlines, hother⟩ := herrors.feed chunk
      obtain ⟨ihOutput, ihErrors⟩ := ih houtput hread
      rw [deliver, part_append, part_append, ← List.append_assoc (complete read'), hlines,
        stream_cons, if_neg (by simp), stream_cons, if_pos rfl]
      rw [show part false (errors.feed chunk).1 = [] from hother, List.nil_append,
        ← List.append_assoc read']
      exact ⟨ihOutput, ihErrors⟩

/-- However its chunks are cut and mixed with those of the other, a stream is cut into all its
lines. -/
theorem part_deliver_eq_all (chunks : List (Bool × Text)) (isError : Bool) :
    part isError (deliver { isError := false } { isError := true } chunks)
      = all (stream isError chunks) := by
  have houtput : HasRead { isError := false } false [] := ⟨rfl, rfl⟩
  have herrors : HasRead { isError := true } true [] := ⟨rfl, rfl⟩
  obtain ⟨hlines, hlines'⟩ := part_deliver houtput herrors chunks
  cases isError with
  | false => exact hlines
  | true => exact hlines'

/-- A stream is a row of lines, each ended by a line feed, and a tail without one. What is delivered
of it, whatever the chunks and their order, is each of these lines, without one carriage return at
its end, and the tail as it stands unless it is empty. -/
theorem deliver_lines (chunks : List (Bool × Text)) (isError : Bool) :
    ∃ (lines : List Text) (tail : Text),
      stream isError chunks = lines.flatMap (· ++ [Lines.lineFeed]) ++ tail ∧
      (∀ line ∈ lines, Lines.lineFeed ∉ line) ∧ Lines.lineFeed ∉ tail ∧
      part isError (deliver { isError := false } { isError := true } chunks) =
        lines.map Lines.dropReturn ++ if tail = [] then [] else [tail] := by
  obtain ⟨hlines, htail⟩ := Lines.lineFeed_not_mem (stream isError chunks)
  exact ⟨_, _, (Lines.closed_join _).symm, hlines, htail, part_deliver_eq_all chunks isError⟩

/-- A line end may be cut in two, with the other stream in between. -/
example : deliver { isError := false } { isError := true }
    [(false, utf8 "a\r"), (true, utf8 "x"), (false, utf8 "\nb")] =
      [(false, utf8 "a"), (false, utf8 "b"), (true, utf8 "x")] := by
  decide

section Launcher

theorem stream_append (isError : Bool) (ps qs : List (Bool × Text)) :
    stream isError (ps ++ qs) = stream isError ps ++ stream isError qs := by
  simp [stream]

/-- One read takes the beginning of its stream. -/
theorem stream_read (isError isError' : Bool) (t : Text) :
    stream isError (read isError' t) = if isError' = isError then t.take bufferSize else [] := by
  unfold read
  by_cases h : t = []
  · simp [h, stream]
  · rw [if_neg h, stream_cons]
    simp [stream]

/-- Enough rounds read both streams to their ends. -/
theorem stream_reads (rounds : Nat) (output errors : Text) (houtput : output.length ≤ rounds)
    (herrors : errors.length ≤ rounds) (isError : Bool) :
    stream isError (reads rounds output errors) = if isError then errors else output := by
  induction rounds generalizing output errors with
  | zero =>
    obtain rfl := List.eq_nil_of_length_eq_zero (Nat.le_zero.mp houtput)
    obtain rfl := List.eq_nil_of_length_eq_zero (Nat.le_zero.mp herrors)
    simp [reads, stream]
  | succ rounds ih =>
    have hrest := ih (output.drop bufferSize) (errors.drop bufferSize)
      (by rw [List.length_drop, bufferSize]; omega) (by rw [List.length_drop, bufferSize]; omega)
    rw [reads, stream_append, stream_append, hrest, stream_read, stream_read]
    cases isError <;> simp

/-- The lines that the system's launcher delivers of a stream are all lines that the process wrote
to it. -/
theorem part_lines (outcome : Shell.Outcome) (isError : Bool) :
    part isError (lines outcome) = all (if isError then outcome.errors else outcome.output) := by
  rw [lines, part_deliver_eq_all, stream_reads _ _ _ (Nat.le_max_left ..) (Nat.le_max_right ..)]

end Launcher

end Subprocess

end NativeBuild
