import Mathlib.Algebra.GroupWithZero.Nat
import Mathlib.Data.List.Chain
import NativeBuild.Proofs.Diagnostic.Sink
import NativeBuild.Proofs.Json.Blanks
import NativeBuild.Proofs.Lines

/-!
# Reading a diagnostics file while it grows

A diagnostics file is looked at again and again while it grows, and a last time at its end. The
invariant is that after a look the tail is the one that a single look at the same content leaves.
So over all looks the sink is handed what one reading of the final content finds, however the file
was cut into appends. Complete lines lose a carriage return at their end and the last line does not;
that makes no difference, because a carriage return is a blank for the reader of records.
-/
namespace NativeBuild

namespace Text

theorem dropBlanks_eq_nil_iff (t : Text) : dropBlanks t = [] ↔ ∀ b ∈ t, isBlank b = true :=
  List.dropWhile_eq_nil_iff

theorem trim_eq_nil_iff (t : Text) : trim t = [] ↔ ∀ b ∈ t, isBlank b = true := by
  rw [trim, List.reverse_eq_nil_iff, dropBlanks_eq_nil_iff, ← dropBlanks_eq_nil_iff t]
  constructor
  · intro h
    by_contra hne
    -- What is left starts with a byte that is not blank.
    have hhead := List.head_dropWhile_not isBlank hne
    have := h _ (List.mem_reverse.2 (List.head_mem hne))
    simp [dropBlanks, hhead] at this
  · intro h
    simp [h]

end Text

namespace Lines

theorem dropReturn_cases (line : Text) :
    dropReturn line = line ∨ line = dropReturn line ++ [carriageReturn] := by
  by_cases h : line.getLast? = some carriageReturn
  · obtain ⟨front, rfl⟩ := List.getLast?_eq_some_iff.1 h
    exact .inr (by rw [dropReturn_append_return])
  · exact .inl (dropReturn_of_not h)

end Lines

namespace Diagnostic

theorem isBlankLine_dropReturn (line : Text) :
    isBlankLine (Lines.dropReturn line) = isBlankLine line := by
  rcases Lines.dropReturn_cases line with h | h
  · rw [h]
  · rw [Bool.eq_iff_iff, isBlankLine, isBlankLine, beq_iff_eq, beq_iff_eq, Text.trim_eq_nil_iff,
      Text.trim_eq_nil_iff]
    conv_rhs => rw [h]
    simp only [List.forall_mem_append, List.mem_singleton, forall_eq]
    simp [show Text.isBlank Lines.carriageReturn = true by decide]

theorem parse?_eq (line : Text) : parse? line = (Json.parse line).toOption.bind ofValue? := by
  rw [parse?, read]
  cases Json.parse line with
  | error e => rfl
  | ok record => cases h : ofValue? record <;> simp [h, Except.toOption]

theorem parse?_dropReturn (line : Text) : parse? (Lines.dropReturn line) = parse? line := by
  rcases Lines.dropReturn_cases line with h | h
  · rw [h]
  · conv_rhs => rw [h]
    rw [parse?_eq, parse?_eq, Json.toOption_parse_append_blanks]
    simp [Json.isBlank, Lines.carriageReturn]

/-- The lines of a file that are not blank; a last line needs no line feed. -/
def records (content : Text) : List Text :=
  (Text.pieces (· == Lines.lineFeed) content).filter fun line => !isBlankLine line

/-- What one look at a whole file finds. -/
def reading (content : Text) : List Diagnostic := (records content).filterMap parse?

theorem diagnostic?_ofLine (line : Text) : (Event.ofLine line).diagnostic? = parse? line := by
  rw [Event.ofLine, parse?]
  cases read line <;> rfl

theorem events_append (lines more : List Text) :
    events (lines ++ more) = events lines ++ events more := by simp [events]

theorem taken_events (lines : List Text) :
    taken (events lines) = (lines.filter fun line => !isBlankLine line).filterMap parse? := by
  simp [taken, events, List.filterMap_map, diagnostic?_ofLine]

/-- A carriage return at the end of a line changes neither whether it is blank nor its record. -/
theorem taken_events_dropReturn (lines : List Text) :
    taken (events (lines.map Lines.dropReturn)) = taken (events lines) := by
  rw [taken_events, taken_events, List.filter_map, List.filterMap_map]
  simp [Function.comp_def, isBlankLine_dropReturn, parse?_dropReturn]

theorem length_events_dropReturn (lines : List Text) :
    (events (lines.map Lines.dropReturn)).length = (events lines).length := by
  simp [events, List.filter_map, Function.comp_def, isBlankLine_dropReturn]

/-- The lines that are complete and the one that is held back are all there is to read. -/
theorem taken_events_complete_rest (content : Text) :
    taken (events (Lines.complete content ++ [Lines.rest content])) = reading content := by
  rw [events_append, taken_append, Lines.complete, taken_events_dropReturn, ← taken_append,
    ← events_append, ← Lines.pieces_eq, taken_events, reading, records]

theorem length_events_complete_rest (content : Text) :
    (events (Lines.complete content ++ [Lines.rest content])).length
      = (records content).length := by
  rw [events_append, List.length_append, Lines.complete, length_events_dropReturn,
    ← List.length_append, ← events_append, ← Lines.pieces_eq, records]
  simp [events]

namespace Tail

@[simp] theorem count_nil (t : Tail) : t.count [] = t := by simp [count, taken]

theorem count_append (t : Tail) (es more : List Event) :
    t.count (es ++ more) = (t.count es).count more := by
  simp [count, taken_append, Nat.add_assoc]

theorem reported_count (t : Tail) (es : List Event) :
    (t.count es).reported = t.reported + (taken es).length := rfl

/-- Each line that is not blank is either taken or refused. -/
theorem reported_add_refused_count (t : Tail) (lines : List Text) :
    (t.count (events lines)).reported + (t.count (events lines)).refused
      = t.reported + t.refused + (events lines).length := by
  induction lines generalizing t with
  | nil => simp [events]
  | cons line lines ih =>
    cases hblank : isBlankLine line with
    | true => simpa [events, hblank] using ih t
    | false =>
      have hcons : events (line :: lines) = [Event.ofLine line] ++ events lines := by
        simp [events, hblank]
      rw [hcons, count_append, ih]
      rw [Event.ofLine]
      cases read line <;> simp [count, taken, List.filterMap_cons] <;> omega

/-- The tail after one look at a file of this content. -/
def reached (content : Text) : Tail :=
  { ({} : Tail).count (events (Lines.complete content)) with
    offset := content.length
    pending := Lines.rest content }

/-- A file that goes on behind what was read: the lines that became complete are handed on, and the
tail is again the one of a single look. -/
theorem readOn_reached (content more : Text) :
    ∃ lines, readOn (content ++ more) (reached content)
        = (reached (content ++ more), events lines) ∧
      Lines.complete (content ++ more) = Lines.complete content ++ lines := by
  refine ⟨Lines.complete (Lines.rest content ++ more), ?_, Lines.complete_append content more⟩
  simp only [readOn, reached, List.drop_left, Lines.rest_append content more,
    Lines.complete_append content more, events_append, count_append]
  rfl

/-- The file goes on from one look to the next; a file that is missing is empty. -/
def Extends (before after : Option Text) : Prop := before.getD [] <+: after.getD []

instance (before after : Option Text) : Decidable (Extends before after) :=
  inferInstanceAs (Decidable (_ <+: _))

theorem poll_reached {before after : Option Text} (h : Extends before after) :
    ∃ lines, (reached (before.getD [])).poll after = (reached (after.getD []), events lines) ∧
      Lines.complete (after.getD []) = Lines.complete (before.getD []) ++ lines := by
  cases after with
  | none =>
    have hnil : before.getD [] = [] := List.prefix_nil.1 h
    exact ⟨[], by rw [hnil]; rfl, by simp [hnil]⟩
  | some content =>
    obtain ⟨more, hmore⟩ := h
    rw [Option.getD_some] at hmore
    subst hmore
    obtain ⟨lines, hread, hcomplete⟩ := readOn_reached (before.getD []) more
    refine ⟨lines, ?_, hcomplete⟩
    rw [poll, if_neg (by simp [reached]), hread]
    rfl

theorem finish_reached {before after : Option Text} (h : Extends before after) :
    ∃ lines, ((reached (before.getD [])).finish after).2 = events lines ∧
      Lines.complete (after.getD []) ++ [Lines.rest (after.getD [])]
        = Lines.complete (before.getD []) ++ lines ∧
      ((reached (before.getD [])).finish after).1
        = { (reached (after.getD [])).count (events [Lines.rest (after.getD [])]) with
            pending := [] } := by
  obtain ⟨lines, hpoll, hcomplete⟩ := poll_reached h
  refine ⟨lines ++ [Lines.rest (after.getD [])], ?_, ?_, ?_⟩
  · simp only [finish, hpoll, events_append]
    rfl
  · rw [hcomplete, List.append_assoc]
  · simp only [finish, hpoll]
    rfl

/-- What stands in a file when a session looks at it. -/
def seen (file : Path) (s : Session) : Option Text := (s.files.read file).toOption

/-- What has come of some looks: where the tail stands, how many diagnostics each look returned,
and which ones the sink was handed. -/
structure Outcome where
  tail : Tail := {}
  counts : List Nat := []
  handed : List Diagnostic := []
  deriving DecidableEq

variable (file : Path) (report : Diagnostic → SessionM Unit)

/-- One more look, in the session that it finds. The sink keeps what it is handed on the way to
`report`. -/
def Outcome.look (look : Look) (o : Outcome) (s : Session) : Outcome :=
  let ((tail, count), handed) :=
    (((o.tail.lookAt look file (collecting report)).run o.handed).run s).1
  { tail, counts := o.counts ++ [count], handed }

/-- Looks at a file from the start in some sessions in turn, and takes the last look in a session
of its own. -/
def watchToEnd (looks : List Session) (last : Session) : Outcome :=
  (looks.foldl (Outcome.look file report poll) {}).look file report finish last

namespace Outcome

theorem look_eq (look : Look) (o : Outcome) (s : Session) :
    o.look file report look s =
      { tail := (look (seen file s) o.tail).1
        counts := o.counts ++ [(taken (look (seen file s) o.tail).2).length]
        handed := o.handed ++ taken (look (seen file s) o.tail).2 } := by
  rw [Outcome.look, run_lookAt_collecting]
  rfl

/-- What the looks returned is what the sink was handed. -/
def Counted (o : Outcome) : Prop := o.counts.sum = o.handed.length

variable {o : Outcome}

theorem Counted.look (h : o.Counted) (look : Look) (s : Session) :
    (o.look file report look s).Counted := by
  have hsum : o.counts.sum = o.handed.length := h
  simp [Counted, look_eq, hsum]

theorem Counted.foldl (h : o.Counted) (look : Look) (looks : List Session) :
    (looks.foldl (Outcome.look file report look) o).Counted := by
  induction looks generalizing o with
  | nil => exact h
  | cons s looks ih => exact ih (h.look file report look s)

/-- After a run of looks the sink was handed the records of the lines that became complete on the
way, behind what it had been handed before. -/
theorem foldl_poll {before : Option Text} {looks : List Session}
    (htail : o.tail = reached (before.getD []))
    (h : List.IsChain Extends (before :: looks.map (seen file))) :
    ∃ lines after,
      (looks.foldl (Outcome.look file report poll) o).tail = reached (after.getD []) ∧
      (looks.foldl (Outcome.look file report poll) o).handed = o.handed ++ taken (events lines) ∧
      (before :: looks.map (seen file)).getLast? = some after ∧
      Lines.complete (after.getD []) = Lines.complete (before.getD []) ++ lines := by
  induction looks generalizing before o with
  | nil => exact ⟨[], before, htail, by simp [events, taken], rfl, by simp⟩
  | cons s looks ih =>
    rw [List.map_cons, List.isChain_cons_cons] at h
    obtain ⟨hfirst, hrest⟩ := h
    obtain ⟨first, hpoll, hcomplete⟩ := poll_reached hfirst
    have hlook := look_eq file report poll o s
    rw [htail, hpoll] at hlook
    obtain ⟨more, after, hwatch, hhanded, hlast, hmore⟩ :=
      ih (congrArg Outcome.tail hlook) hrest
    refine ⟨first ++ more, after, hwatch, ?_, ?_, ?_⟩
    · rw [List.foldl_cons, hhanded, congrArg Outcome.handed hlook, events_append, taken_append,
        List.append_assoc]
    · rw [List.map_cons, List.getLast?_cons_cons, hlast]
    · rw [hmore, hcomplete, List.append_assoc]

end Outcome

/-- However a file grows between the looks at it, over all looks the sink is handed what one
reading of its final content finds, each diagnostic once and in order. What the looks return adds
up to the number of the records taken, and every line that is not blank was taken or refused. -/
theorem watchToEnd_eq_reading (looks : List Session) (last : Session)
    (h : List.IsChain Extends ((looks ++ [last]).map (seen file))) :
    let content := (seen file last).getD []
    let outcome := watchToEnd file report looks last
    outcome.handed = reading content ∧
      outcome.counts.sum = outcome.tail.reported ∧
      outcome.tail.reported + outcome.tail.refused = (records content).length := by
  have hstart : List.IsChain Extends (none :: looks.map (seen file) ++ [seen file last]) := by
    rw [List.cons_append, List.isChain_cons]
    exact ⟨fun _ _ => List.nil_prefix, by simpa using h⟩
  obtain ⟨hlooks, -, hend⟩ := List.isChain_append.1 hstart
  obtain ⟨lines, after, hwatch, hhanded, hlast, hcomplete⟩ :=
    Outcome.foldl_poll file report (o := {}) rfl hlooks
  obtain ⟨more, hevents, hlines, htail⟩ := finish_reached (hend after hlast _ rfl)
  have hlook := Outcome.look_eq file report finish
    (looks.foldl (Outcome.look file report poll) {}) last
  rw [hwatch, hhanded, hevents, htail] at hlook
  have hcounted : (watchToEnd file report looks last).Counted :=
    (Outcome.Counted.foldl file report (o := {}) rfl poll looks).look file report finish last
  generalize (seen file last).getD [] = content at hlines hlook ⊢
  have hall : Lines.complete content ++ [Lines.rest content] = lines ++ more := by
    rw [hlines, hcomplete]
    simp
  have hread : (watchToEnd file report looks last).handed = reading content := by
    rw [watchToEnd, congrArg Outcome.handed hlook, List.nil_append, ← taken_append,
      ← events_append, ← hall, taken_events_complete_rest]
  -- The counters of the last tail are those of one look at everything.
  have hreported : (watchToEnd file report looks last).tail.reported
      = (({} : Tail).count (events (Lines.complete content ++ [Lines.rest content]))).reported := by
    rw [watchToEnd, congrArg Outcome.tail hlook, events_append, count_append]
    rfl
  have hrefused : (watchToEnd file report looks last).tail.refused
      = (({} : Tail).count (events (Lines.complete content ++ [Lines.rest content]))).refused := by
    rw [watchToEnd, congrArg Outcome.tail hlook, events_append, count_append]
    rfl
  refine ⟨hread, ?_, ?_⟩
  · rw [hreported, reported_count, taken_events_complete_rest, ← hread]
    exact Eq.trans hcounted (Nat.zero_add _).symm
  · rw [hreported, hrefused, reported_add_refused_count, length_events_complete_rest]
    exact Nat.zero_add _

/-- A session that finds a file `d` in the root directory, if there is a content for it. -/
def holding (content : Option Text) : Session :=
  { files := { entries := (content.map fun t => ([utf8 "d"], Entry.file 0o644 t)).toList } }

/-- A record with a character of two bytes, which a cut after 25 bytes divides. -/
def sampleRecord : Text := utf8 "\x7b\"type\":\"error\",\"text\":\"é\"\x7d"

/-- Cuts inside a character and between a carriage return and its line feed. -/
def sampleLooks : List Session :=
  [holding none, holding (some (sampleRecord.take 25)), holding (some (sampleRecord ++ utf8 "\r"))]

/-- The end of the same file: a line that is no record, and an open last line. -/
def sampleEnd : Session :=
  holding (some (sampleRecord ++ utf8 "\r\n[]\n" ++ sampleRecord ++ utf8 "\r"))

theorem watchToEnd_eq_reading_of_sample :
    List.IsChain Extends ((sampleLooks ++ [sampleEnd]).map (seen (utf8 "/d"))) ∧
      (watchToEnd (utf8 "/d") Diagnostic.log sampleLooks sampleEnd).handed
        = [{ severity := .error, message := utf8 "é" },
          { severity := .error, message := utf8 "é" }] := by
  have h : List.IsChain Extends ((sampleLooks ++ [sampleEnd]).map (seen (utf8 "/d"))) := by
    decide
  have hread := watchToEnd_eq_reading (utf8 "/d") Diagnostic.log sampleLooks sampleEnd h
  exact ⟨h, hread.1.trans (by decide)⟩

end Tail

end Diagnostic

end NativeBuild
