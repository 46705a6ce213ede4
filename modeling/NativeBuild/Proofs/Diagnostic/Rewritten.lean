import NativeBuild.Proofs.Diagnostic.Tail

/-!
# A diagnostics file that is written again

What a call hands on depends on how much of the file was read and on what is held back, and not on
the counters. A file that became shorter is read from its beginning, and from then on it makes no
difference what had been read before. A look that does not find the file changes nothing. So a file
that is removed and written again is read from its beginning only if it is shorter than the one
before; otherwise it is taken to go on where that one ended, and what stands before is not read.
-/
namespace NativeBuild.Diagnostic.Tail

/-- Two tails that have read as much, and hold the same back. -/
structure Abreast (t u : Tail) : Prop where
  offset : t.offset = u.offset
  pending : t.pending = u.pending

section Abreast

variable {t u : Tail}

theorem Abreast.readOn (h : Abreast t u) (content : Text) :
    Abreast (readOn content t).1 (readOn content u).1 ∧
      (readOn content t).2 = (readOn content u).2 := by
  unfold Tail.readOn
  rw [h.offset, h.pending]
  exact ⟨⟨rfl, rfl⟩, rfl⟩

theorem Abreast.poll (h : Abreast t u) (content : Option Text) :
    Abreast (t.poll content).1 (u.poll content).1 ∧ (t.poll content).2 = (u.poll content).2 := by
  cases content with
  | none => exact ⟨h, rfl⟩
  | some content =>
    unfold Tail.poll
    rw [h.offset]
    dsimp only
    split
    · obtain ⟨hbeside, hevents⟩ :=
        @Abreast.readOn { t with offset := 0, pending := [] } { u with offset := 0, pending := [] }
          ⟨rfl, rfl⟩ content
      exact ⟨hbeside, congrArg (Event.restarted :: ·) hevents⟩
    · exact h.readOn content

theorem Abreast.finish (h : Abreast t u) (content : Option Text) :
    Abreast (t.finish content).1 (u.finish content).1 ∧
      (t.finish content).2 = (u.finish content).2 := by
  obtain ⟨hbeside, hevents⟩ := h.poll content
  unfold Tail.finish
  dsimp only
  rw [hevents, hbeside.pending]
  exact ⟨⟨hbeside.offset, rfl⟩, rfl⟩

end Abreast

/-- A call for what is new in a file, in the session that it finds; the last one closes the file. -/
structure Call where
  session : Session
  closing : Bool := false

section Calls

variable (file : Path) (report : Diagnostic → SessionM Unit)

def Call.look (c : Call) : Look := if c.closing then finish else poll

/-- The tail after a call, and what the call hands to the sink. -/
def Call.run (c : Call) (t : Tail) : Tail × List Diagnostic :=
  let outcome := ({ tail := t } : Outcome).look file report c.look c.session
  (outcome.tail, outcome.handed)

/-- Some calls in turn: the tail at the end, and what the sink is handed in each of them. -/
def follow (t : Tail) : List Call → Tail × List (List Diagnostic)
  | [] => (t, [])
  | c :: rest =>
    let (t, new) := c.run file report t
    let (t, more) := follow t rest
    (t, new :: more)

variable {file report} {t u : Tail}

theorem Call.run_poll {c : Call} (h : c.closing = false) :
    c.run file report t
      = ((t.poll (seen file c.session)).1, taken (t.poll (seen file c.session)).2) := by
  simp [Call.run, Call.look, h, Outcome.look_eq]

theorem Call.run_finish {c : Call} (h : c.closing = true) :
    c.run file report t
      = ((t.finish (seen file c.session)).1, taken (t.finish (seen file c.session)).2) := by
  simp [Call.run, Call.look, h, Outcome.look_eq]

theorem Abreast.run (h : Abreast t u) (c : Call) :
    Abreast (c.run file report t).1 (c.run file report u).1 ∧
      (c.run file report t).2 = (c.run file report u).2 := by
  cases hc : c.closing with
  | false =>
    obtain ⟨hbeside, hevents⟩ := h.poll (seen file c.session)
    rw [Call.run_poll hc, Call.run_poll hc]
    exact ⟨hbeside, congrArg taken hevents⟩
  | true =>
    obtain ⟨hbeside, hevents⟩ := h.finish (seen file c.session)
    rw [Call.run_finish hc, Call.run_finish hc]
    exact ⟨hbeside, congrArg taken hevents⟩

/-- What calls hand on depends on what was read and is held back alone. -/
theorem Abreast.follow (h : Abreast t u) (calls : List Call) :
    (follow file report t calls).2 = (follow file report u calls).2 := by
  induction calls generalizing t u with
  | nil => rfl
  | cons c calls ih =>
    obtain ⟨hbeside, hnew⟩ := @Abreast.run file report _ _ h c
    simp only [Tail.follow, hnew, ih hbeside]

theorem follow_append (t : Tail) (calls more : List Call) :
    follow file report t (calls ++ more)
      = ((follow file report (follow file report t calls).1 more).1,
        (follow file report t calls).2
          ++ (follow file report (follow file report t calls).1 more).2) := by
  induction calls generalizing t with
  | nil => rfl
  | cons c calls ih =>
    simp only [List.cons_append, follow, ih]

/-- How much of the file was read by some calls: as much as it held when it was last found. -/
def consumed (file : Path) (calls : List Call) : Nat :=
  ((calls.filterMap fun c => seen file c.session).getLast?.map List.length).getD 0

theorem offset_run (c : Call) (t : Tail) :
    (c.run file report t).1.offset = ((seen file c.session).map List.length).getD t.offset := by
  have hpoll : (t.poll (seen file c.session)).1.offset
      = ((seen file c.session).map List.length).getD t.offset := by
    cases seen file c.session with
    | none => rfl
    | some content =>
      rw [poll]
      split <;> rfl
  cases hc : c.closing with
  | false =>
    rw [Call.run_poll hc]
    exact hpoll
  | true =>
    rw [Call.run_finish hc]
    exact hpoll

theorem offset_follow (calls : List Call) :
    (follow file report {} calls).1.offset = consumed file calls := by
  induction calls using List.reverseRecOn with
  | nil => rfl
  | append_singleton calls c ih =>
    rw [follow_append]
    change (c.run file report _).1.offset = _
    rw [offset_run, ih, consumed, consumed, List.filterMap_append]
    cases hc : seen file c.session <;> simp [hc]

/-- A tail that has read nothing holds nothing back. -/
def Settled (t : Tail) : Prop := t.offset = 0 → t.pending = []

theorem Settled.readOn (h : Settled t) {content : Text} (hle : t.offset ≤ content.length) :
    Settled (readOn content t).1 := by
  intro hlength
  have hnil : content = [] := List.length_eq_zero_iff.1 hlength
  subst hnil
  have hpending : t.pending = [] := h (Nat.le_zero.1 hle)
  simp [Tail.readOn, hpending]

theorem Settled.poll (h : Settled t) (content : Option Text) : Settled (t.poll content).1 := by
  cases content with
  | none => exact h
  | some content =>
    unfold Tail.poll
    dsimp only
    split
    · exact Settled.readOn (fun _ => rfl) (Nat.zero_le _)
    · next hle => exact h.readOn (Nat.not_lt.1 hle)

theorem Settled.run (h : Settled t) (c : Call) : Settled (c.run file report t).1 := by
  cases hc : c.closing with
  | false =>
    rw [Call.run_poll hc]
    exact h.poll _
  | true =>
    rw [Call.run_finish hc]
    exact fun _ => rfl

theorem Settled.follow (h : Settled t) (calls : List Call) :
    Settled (follow file report t calls).1 := by
  induction calls generalizing t with
  | nil => exact h
  | cons c calls ih => exact ih (@Settled.run file report _ h c)

/-- What a tail that has read this much, and holds this back, finds in a file. -/
def found (closing : Bool) (pending more : Text) : List Diagnostic :=
  if closing then reading (pending ++ more) else taken (events (Lines.complete (pending ++ more)))

/-- A call that finds no less than was read reads behind it. -/
theorem run_of_le {c : Call} {content : Text} (hseen : seen file c.session = some content)
    (hle : t.offset ≤ content.length) :
    (c.run file report t).2 = found c.closing t.pending (content.drop t.offset) := by
  have hpoll : t.poll (some content) = readOn content t := if_neg (Nat.not_lt.2 hle)
  cases hc : c.closing with
  | false =>
    rw [Call.run_poll hc, hseen, hpoll]
    rfl
  | true =>
    rw [Call.run_finish hc, hseen, finish, hpoll]
    dsimp only
    rw [found, if_pos rfl, ← taken_events_complete_rest, events_append]
    rfl

/-- A call that finds less than was read starts again. -/
theorem run_of_lt {c : Call} {content : Text} (hseen : seen file c.session = some content)
    (hlt : content.length < t.offset) :
    Abreast (c.run file report t).1 (c.run file report {}).1 ∧
      (c.run file report t).2 = (c.run file report {}).2 := by
  have hpoll : Abreast (t.poll (some content)).1 (({} : Tail).poll (some content)).1 ∧
      (t.poll (some content)).2 = .restarted :: (({} : Tail).poll (some content)).2 := by
    obtain ⟨hbeside, hevents⟩ :=
      @Abreast.readOn { t with offset := 0, pending := [] } {} ⟨rfl, rfl⟩ content
    unfold poll
    simp only [if_pos hlt, Nat.not_lt_zero, if_false]
    exact ⟨hbeside, congrArg (Event.restarted :: ·) hevents⟩
  obtain ⟨hbeside, hevents⟩ := hpoll
  cases hc : c.closing with
  | false =>
    rw [Call.run_poll hc, Call.run_poll hc, hseen, hevents]
    exact ⟨hbeside, rfl⟩
  | true =>
    rw [Call.run_finish hc, Call.run_finish hc, hseen]
    unfold finish
    dsimp only
    rw [hevents, hbeside.pending]
    exact ⟨⟨hbeside.offset, rfl⟩, rfl⟩

/-- A call that does not find the file. -/
def Call.Misses (file : Path) (c : Call) : Prop :=
  c.closing = false ∧ seen file c.session = none

/-- Looks that do not find the file hand nothing on, and leave the tail as it is. -/
theorem follow_missing {gap : List Call} (h : ∀ c ∈ gap, c.Misses file) (t : Tail) :
    follow file report t gap = (t, gap.map fun _ => []) := by
  induction gap with
  | nil => rfl
  | cons c gap ih =>
    obtain ⟨⟨hpoll, hseen⟩, hgap⟩ := List.forall_mem_cons.1 h
    have hrun : c.run file report t = (t, []) := by
      rw [Call.run_poll hpoll, hseen]
      rfl
    simp only [follow, hrun, ih hgap, List.map_cons]

/-- However a file was read, what calls hand on after looks that did not find it: what a new tail
hands on, if the file is found shorter than it was or nothing was read of it; what stands behind as
much as was read, if it is not shorter; and what was held back, if it is closed before it is
found. -/
theorem follow_after_gap (before : List Call) {gap : List Call} (hgap : ∀ c ∈ gap, c.Misses file)
    (next : Call) (later : List Call) :
    let t := (follow file report {} before).1
    let handed := (follow file report t (gap ++ next :: later)).2
    (∀ content, seen file next.session = some content →
      (content.length < consumed file before ∨ consumed file before = 0 →
        handed = (follow file report {} (gap ++ next :: later)).2) ∧
      (consumed file before ≤ content.length →
        handed.take (gap.length + 1) = gap.map (fun _ => [])
          ++ [found next.closing t.pending (content.drop (consumed file before))])) ∧
    (seen file next.session = none → next.closing = true →
      handed.take (gap.length + 1) = gap.map (fun _ => []) ++ [taken (events [t.pending])]) := by
  intro t handed
  have hoffset : t.offset = consumed file before := offset_follow before
  have hsettled : Settled t := Settled.follow (fun _ => rfl) before
  have hhanded : handed = gap.map (fun _ => []) ++ (follow file report t (next :: later)).2 := by
    simp only [handed, follow_append, follow_missing hgap]
  have hnew : (follow file report {} (gap ++ next :: later)).2
      = gap.map (fun _ => []) ++ (follow file report {} (next :: later)).2 := by
    simp only [follow_append, follow_missing hgap]
  have hfirst : handed.take (gap.length + 1)
      = gap.map (fun _ => []) ++ [(next.run file report t).2] := by
    rw [hhanded, List.take_append, List.take_of_length_le (by simp), List.length_map,
      Nat.add_sub_cancel_left]
    rfl
  rw [hnew, hfirst, hhanded, ← hoffset]
  refine ⟨fun content hseen => ⟨?_, fun hle => ?_⟩, fun hseen hclosing => ?_⟩
  · rintro (hlt | hzero)
    · obtain ⟨hbeside, hevents⟩ := @run_of_lt file report _ _ _ hseen hlt
      simp only [follow, hevents, @Abreast.follow file report _ _ hbeside]
    · have hbeside : Abreast t {} := ⟨hzero, hsettled hzero⟩
      rw [@Abreast.follow file report _ _ hbeside]
  · rw [run_of_le hseen hle]
  · rw [Call.run_finish hclosing, hseen]
    rfl

end Calls

/-- A record, and a line for it. -/
def sampleLine (message : String) : Text :=
  utf8 "\x7b\"type\":\"error\",\"text\":\"" ++ utf8 message ++ utf8 "\"\x7d\n"

/-- A file with two records stands where one with a single record was removed. -/
theorem follow_after_gap_of_longer :
    let before := [Call.mk (holding (some (sampleLine "a"))) false]
    let gap := [Call.mk (holding none) false]
    let next := Call.mk (holding (some (sampleLine "b" ++ sampleLine "c"))) false
    let t := (follow (utf8 "/d") Diagnostic.log {} before).1
    (∀ c ∈ gap, c.Misses (utf8 "/d")) ∧
      (follow (utf8 "/d") Diagnostic.log t (gap ++ [next])).2
        = [[], [{ severity := .error, message := utf8 "c" }]] ∧
      (follow (utf8 "/d") Diagnostic.log {} (gap ++ [next])).2
        = [[], [{ severity := .error, message := utf8 "b" },
          { severity := .error, message := utf8 "c" }]] := by
  intro before gap next t
  have hgap : ∀ c ∈ gap, c.Misses (utf8 "/d") := by
    intro c hc
    rw [List.mem_singleton.1 hc]
    exact ⟨rfl, by decide +kernel⟩
  have hseen : seen (utf8 "/d") next.session = some (sampleLine "b" ++ sampleLine "c") := by
    decide +kernel
  have hread := ((@follow_after_gap (utf8 "/d") Diagnostic.log before gap hgap next []).1 _ hseen).2
    (by decide +kernel)
  refine ⟨hgap, hread.trans (by decide +kernel), by decide +kernel⟩

end NativeBuild.Diagnostic.Tail
