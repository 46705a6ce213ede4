import NativeBuild.Build.State
import NativeBuild.Proofs.Actions

/-!
# What a step of a build adds to the record

A step only adds to the record of what happened. Whether the build is cancelled, and the phase it
is in, can be read off the events that were added. A condition on events, which may depend on
whether the build is cancelled by then, holds of a sequence of steps when it holds of each of them.
-/
namespace NativeBuild.Build

/-- The result of a step and the state that it leaves. -/
def exec {α : Type} (m : BuildM α) (s : State) : Except Stop α × State := m.run.run s

@[simp] theorem exec_pure {α : Type} (a : α) (s : State) : exec (pure a) s = (.ok a, s) := rfl

@[simp] theorem exec_get (s : State) : exec get s = (.ok s, s) := rfl

@[simp] theorem exec_modify (f : State → State) (s : State) :
    exec (modify f) s = (.ok (), f s) := rfl

theorem exec_bind {α β : Type} (m : BuildM α) (f : α → BuildM β) (s : State) :
    exec (m >>= f) s = match exec m s with
      | (.ok a, after) => exec (f a) after
      | (.error e, after) => (.error e, after) := by
  refine (run_bind m f s).trans ?_
  unfold exec StateT.run
  cases m.run s with
  | mk result after => cases result <;> rfl

theorem exec_bind_ok {α β : Type} {m : BuildM α} {f : α → BuildM β} {s after : State} {a : α}
    (h : exec m s = (.ok a, after)) : exec (m >>= f) s = exec (f a) after := by
  rw [exec_bind, h]

theorem exec_bind_error {α β : Type} {m : BuildM α} {f : α → BuildM β} {s after : State} {e : Stop}
    (h : exec m s = (.error e, after)) : exec (m >>= f) s = (.error e, after) := by
  rw [exec_bind, h]

/-- Steps in a row that succeed: the first one does. -/
theorem of_exec_bind_ok {α β : Type} {m : BuildM α} {f : α → BuildM β} {s final : State} {b : β}
    (h : exec (m >>= f) s = (.ok b, final)) :
    ∃ a after, exec m s = (.ok a, after) ∧ exec (f a) after = (.ok b, final) :=
  of_run_bind h

theorem exec_succeed {α : Type} (a : α) (s : State) : exec (succeed (.ok a)) s = (.ok a, s) := rfl

theorem exec_record (e : Event) (s : State) :
    exec (record e) s = (.ok (), { s with events := s.events ++ [e] }) := rfl

theorem exec_liftSession {α : Type} (step : SessionM α) (s : State) :
    exec (liftSession step) s =
      (.ok (step.run s.session).1, { s with session := (step.run s.session).2 }) := rfl

@[simp] theorem liftM_session {α : Type} (step : SessionM α) :
    (liftM step : BuildM α) = liftSession step := rfl

theorem exec_changeFiles (change : FileSystem → FileSystem) (s : State) :
    exec (changeFiles change) s =
      (.ok (), { s with session := { s.session with files := change s.session.files } }) := rfl

theorem exec_log (level : Log.Level) (module message : Text) (s : State) :
    ∃ session, exec (log level module message) s = (.ok (), { s with session }) :=
  ⟨_, rfl⟩

def Event.cancels : Event → Bool
  | .cancelled => true
  | _ => false

/-- Whether a build is cancelled after some events. -/
def cancelledAfter (c : Bool) (es : List Event) : Bool := c || es.any Event.cancels

/-- The phase that a build is in after some events. -/
def phaseAfter : Phase → List Event → Phase
  | phase, [] => phase
  | _, .entered phase :: es => phaseAfter phase es
  | phase, _ :: es => phaseAfter phase es

@[simp] theorem cancelledAfter_nil (c : Bool) : cancelledAfter c [] = c := by
  simp [cancelledAfter]

@[simp] theorem cancelledAfter_cons (c : Bool) (e : Event) (es : List Event) :
    cancelledAfter c (e :: es) = cancelledAfter (c || e.cancels) es := by
  simp [cancelledAfter, Bool.or_assoc]

@[simp] theorem cancelledAfter_append (c : Bool) (es fs : List Event) :
    cancelledAfter c (es ++ fs) = cancelledAfter (cancelledAfter c es) fs := by
  simp [cancelledAfter, Bool.or_assoc]

@[simp] theorem phaseAfter_append (phase : Phase) (es fs : List Event) :
    phaseAfter phase (es ++ fs) = phaseAfter (phaseAfter phase es) fs := by
  induction es generalizing phase with
  | nil => rfl
  | cons e es ih => cases e <;> exact ih _

/-- A condition on an event, and on whether the build is cancelled when it happens. -/
abbrev Condition := Bool → Event → Prop

def Anything : Condition := fun _ _ => True

/-- Every event but the moment of cancellation. -/
def Silent : Condition := fun _ e => e.cancels = false

/-- Only the moment of cancellation. -/
def Cancelling : Condition := fun _ e => e = .cancelled

/-- Some events meet a condition, each in its turn. -/
def Meets (E : Condition) : Bool → List Event → Prop
  | _, [] => True
  | c, e :: es => E c e ∧ Meets E (c || e.cancels) es

theorem Meets.append {E : Condition} {c : Bool} {es fs : List Event} (hes : Meets E c es)
    (hfs : Meets E (cancelledAfter c es) fs) : Meets E c (es ++ fs) := by
  induction es generalizing c with
  | nil => simpa using hfs
  | cons e es ih => exact ⟨hes.1, ih hes.2 (by simpa using hfs)⟩

theorem Meets.mono {E F : Condition} (h : ∀ c e, E c e → F c e) {c : Bool} {es : List Event}
    (hes : Meets E c es) : Meets F c es := by
  induction es generalizing c with
  | nil => trivial
  | cons e es ih => exact ⟨h _ _ hes.1, ih hes.2⟩

theorem Meets.of_forall {E : Condition} {es : List Event} (h : ∀ e ∈ es, ∀ c, E c e) (c : Bool) :
    Meets E c es := by
  induction es generalizing c with
  | nil => trivial
  | cons e es ih => exact ⟨h e (by simp) c, ih (fun f hf => h f (by simp [hf])) _⟩

theorem cancelled_of_meets {c : Bool} {es : List Event} (h : Meets Cancelling c es) :
    ∀ e ∈ es, e = .cancelled := by
  induction es generalizing c with
  | nil => simp
  | cons e es ih =>
    intro f hf
    obtain rfl | hf := List.mem_cons.mp hf
    · exact h.1
    · exact ih h.2 f hf

theorem cancelledAfter_of_silent {c : Bool} {es : List Event} (h : Meets Silent c es) :
    cancelledAfter c es = c := by
  induction es generalizing c with
  | nil => simp
  | cons e es ih =>
    have he : e.cancels = false := h.1
    have hrest := h.2
    rw [he, Bool.or_false] at hrest
    rw [cancelledAfter_cons, he, Bool.or_false, ih hrest]

/-- One state leads to another by adding events that meet a condition. -/
structure Added (E : Condition) (s after : State) (new : List Event) : Prop where
  events : after.events = s.events ++ new
  cancelled : after.cancelled = cancelledAfter s.cancelled new
  phase : after.phase = phaseAfter s.phase new
  meets : Meets E s.cancelled new

theorem Added.refl (E : Condition) (s : State) : Added E s s [] :=
  ⟨by simp, by simp, rfl, trivial⟩

theorem Added.trans {E : Condition} {s middle after : State} {es fs : List Event}
    (h : Added E s middle es) (h' : Added E middle after fs) : Added E s after (es ++ fs) where
  events := by rw [h'.events, h.events, List.append_assoc]
  cancelled := by rw [h'.cancelled, h.cancelled, cancelledAfter_append]
  phase := by rw [h'.phase, h.phase, phaseAfter_append]
  meets := h.meets.append (h.cancelled ▸ h'.meets)

/-- A build that has been cancelled on the way has a record of it. -/
theorem Added.cancelled_mem {E : Condition} {s after : State} {new : List Event}
    (h : Added E s after new) (hbefore : s.cancelled = false) (hafter : after.cancelled = true) :
    .cancelled ∈ new := by
  rw [h.cancelled, hbefore, cancelledAfter, Bool.false_or] at hafter
  obtain ⟨e, hmem, hcancels⟩ := List.any_eq_true.mp hafter
  cases e with
  | cancelled => exact hmem
  | _ => cases hcancels

theorem Added.of_meets {E F : Condition} {s after : State} {new : List Event}
    (h : Added F s after new) (hmeets : Meets E s.cancelled new) : Added E s after new :=
  ⟨h.events, h.cancelled, h.phase, hmeets⟩

theorem Added.mono {E F : Condition} (h : ∀ c e, E c e → F c e) {s after : State}
    {new : List Event} (hadded : Added E s after new) : Added F s after new :=
  hadded.of_meets (hadded.meets.mono h)

/-- From a state, a step adds events that meet a condition. -/
def AddsFrom {α : Type} (E : Condition) (m : BuildM α) (s : State) : Prop :=
  ∃ new, Added E s (exec m s).2 new

/-- From every state, a step adds events that meet a condition. -/
def Adds {α : Type} (E : Condition) (m : BuildM α) : Prop := ∀ s, AddsFrom E m s

/-- What a step adds to the record. -/
def happened {α : Type} (m : BuildM α) (s : State) : List Event :=
  (exec m s).2.events.drop s.events.length

theorem Added.happened_eq {α : Type} {E : Condition} {m : BuildM α} {s : State} {new : List Event}
    (h : Added E s (exec m s).2 new) : happened m s = new := by
  unfold happened
  rw [h.events, List.drop_left]

theorem AddsFrom.happened {α : Type} {E : Condition} {m : BuildM α} {s : State}
    (h : AddsFrom E m s) : Added E s (exec m s).2 (happened m s) := by
  obtain ⟨new, hnew⟩ := h
  rwa [hnew.happened_eq]

section Closure

variable {α β : Type} {E F : Condition}

theorem AddsFrom.bind {m : BuildM α} {f : α → BuildM β} {s : State} (hm : AddsFrom E m s)
    (hf : ∀ a after, exec m s = (.ok a, after) → AddsFrom E (f a) after) :
    AddsFrom E (m >>= f) s := by
  obtain ⟨new, hnew⟩ := hm
  unfold AddsFrom
  rw [exec_bind]
  cases hexec : exec m s with
  | mk result after =>
    rw [hexec] at hnew
    cases result with
    | error e => exact ⟨new, hnew⟩
    | ok a =>
      obtain ⟨more, hmore⟩ := hf a after hexec
      exact ⟨new ++ more, hnew.trans hmore⟩

theorem Adds.bind {m : BuildM α} {f : α → BuildM β} (hm : Adds E m) (hf : ∀ a, Adds E (f a)) :
    Adds E (m >>= f) :=
  fun s => (hm s).bind fun a after _ => hf a after

theorem Adds.mono (h : ∀ c e, E c e → F c e) {m : BuildM α} (hm : Adds E m) : Adds F m :=
  fun s => (hm s).imp fun _ hnew => hnew.mono h

theorem Adds.anything {m : BuildM α} (hm : Adds E m) : Adds Anything m :=
  hm.mono fun _ _ _ => trivial

theorem Adds.pure (a : α) : Adds E (pure a : BuildM α) := fun s => ⟨[], .refl E s⟩

theorem Adds.throw (e : Stop) : Adds E (throw e : BuildM α) := fun s => ⟨[], .refl E s⟩

theorem Adds.get : Adds E (get : BuildM State) := fun s => ⟨[], .refl E s⟩

theorem Adds.map {m : BuildM α} (f : α → β) (hm : Adds E m) : Adds E (f <$> m) := by
  rw [map_eq_pure_bind]
  exact hm.bind fun a => .pure (f a)

theorem Adds.fail (failure : Failure) : Adds E (fail failure : BuildM α) := .throw (.failed failure)

theorem Adds.succeed (result : Except Failure α) : Adds E (succeed result) := by
  cases result with
  | ok a => exact .pure a
  | error failure => exact .fail failure

theorem Adds.liftSession (step : SessionM α) : Adds E (liftSession step) :=
  fun s => ⟨[], by simp [exec_liftSession], by simp [exec_liftSession], rfl, trivial⟩

theorem Adds.perform (task : Job α) : Adds E (perform task) := by
  refine (Adds.liftSession task.run).bind fun result => ?_
  cases result with
  | ok a => exact .pure a
  | error failure => exact .throw (.failed failure)

theorem Adds.log (level : Log.Level) (module message : Text) : Adds E (log level module message) :=
  .liftSession _

theorem Adds.changeFiles (change : FileSystem → FileSystem) : Adds E (changeFiles change) :=
  fun s => ⟨[], by simp [Build.changeFiles], by simp [Build.changeFiles], rfl, trivial⟩

theorem AddsFrom.record {e : Event} {s : State} (he : E s.cancelled e)
    (hcancels : e.cancels = false) (hphase : phaseAfter s.phase [e] = s.phase) :
    AddsFrom E (record e) s :=
  ⟨[e], rfl, by simp [exec_record, hcancels], hphase.symm, he, trivial⟩

theorem Adds.forM {f : α → BuildM Unit} (hf : ∀ a, Adds E (f a)) (as : List α) :
    Adds E (as.forM f) := by
  induction as with
  | nil => exact .pure ()
  | cons a as ih => exact (hf a).bind fun _ => ih

theorem exec_cancel (s : State) :
    ∃ after rest, exec cancel s = (.ok (), after) ∧ Added Cancelling s after rest := by
  cases h : s.cancelled with
  | true => exact ⟨s, [], by simp [cancel, h], .refl _ s⟩
  | false =>
    exact ⟨{ s with cancelled := true, events := s.events ++ [.cancelled] }, [.cancelled],
      by simp [cancel, h], rfl, by simp [h, Event.cancels], rfl, rfl, trivial⟩

/-- A collaborator answers, and may cancel the build. -/
theorem exec_ask (query : Query α) (s : State) :
    ∃ after rest, exec (ask query) s = (.ok (query s.session.files).value, after) ∧
      Added Cancelling s after rest ∧
      ((query s.session.files).cancels = false → rest = []) := by
  unfold ask
  rw [exec_bind_ok (exec_get s)]
  dsimp only
  rw [exec_bind_ok (exec_changeFiles _ s), exec_bind_ok (exec_liftSession _ _)]
  split
  · next h =>
    obtain ⟨after, rest, hexec, hadded⟩ := exec_cancel
      { s with
        session := (StateT.run (Session.print (query s.session.files).printed)
          { s.session with files := (query s.session.files).change s.session.files }).2 }
    refine ⟨after, rest, exec_bind_ok hexec, ?_, ?_⟩
    · exact ⟨hadded.events, hadded.cancelled, hadded.phase, hadded.meets⟩
    · intro hnot
      simp [h] at hnot
  · exact ⟨_, [], rfl, ⟨by simp, by simp, rfl, trivial⟩, fun _ => rfl⟩

/-- A build is cancelled behind a question if it was before, or if the answer cancels it. -/
theorem cancelled_exec_ask (query : Query α) (s : State) :
    (exec (ask query) s).2.cancelled = (s.cancelled || (query s.session.files).cancels) := by
  have hcancel (t : State) : exec cancel t = (.ok (), if t.cancelled then t
    else { t with cancelled := true, events := t.events ++ [.cancelled] }) := rfl
  unfold ask
  rw [exec_bind_ok (exec_get s)]
  dsimp only
  rw [exec_bind_ok (exec_changeFiles _ s), exec_bind_ok (exec_liftSession _ _)]
  cases (query s.session.files).cancels with
  | false => simp
  | true =>
    rw [if_pos rfl, exec_bind_ok (hcancel _), exec_pure, Bool.or_true]
    split
    · next h => exact h
    · rfl

/-- A collaborator changes the files as it answers, and prints; nothing else of the session. -/
theorem exec_ask_session (query : Query α) (s : State) :
    (exec (ask query) s).2.session =
      { s.session with
        files := (query s.session.files).change s.session.files
        out := s.session.out ++ (query s.session.files).printed } := by
  have hcancel (t : State) : exec cancel t = (.ok (), if t.cancelled then t
    else { t with cancelled := true, events := t.events ++ [.cancelled] }) := rfl
  unfold ask
  rw [exec_bind_ok (exec_get s)]
  dsimp only
  rw [exec_bind_ok (exec_changeFiles _ s), exec_bind_ok (exec_liftSession _ _)]
  cases (query s.session.files).cancels with
  | false => rfl
  | true =>
    rw [if_pos rfl, exec_bind_ok (hcancel _), exec_pure]
    split <;> rfl

/-- A collaborator leaves the files as its answer changes them. -/
theorem exec_ask_files (query : Query α) (s : State) :
    ∃ after, exec (ask query) s = (.ok (query s.session.files).value, after) ∧
      after.session.files = (query s.session.files).change s.session.files := by
  obtain ⟨after, rest, hexec, -⟩ := exec_ask query s
  have hsession := exec_ask_session query s
  rw [hexec] at hsession
  exact ⟨after, hexec, congrArg Session.files hsession⟩

/-- What a collaborator is told is in the record, and then it does what it does with it. -/
theorem exec_tell (event : α → Event) (listener : α → Query Unit) (a : α) (s : State) :
    exec (tell event listener a) s =
      exec (ask (listener a)) { s with events := s.events ++ [event a] } :=
  exec_bind_ok (exec_record _ _)

/-- A collaborator that does not cancel adds nothing. -/
theorem Adds.ask_of_not_cancels {query : Query α} (h : ∀ fs, (query fs).cancels = false) :
    Adds E (ask query) := by
  intro s
  obtain ⟨after, rest, hexec, hadded, hrest⟩ := exec_ask query s
  obtain rfl := hrest (h _)
  refine ⟨[], ?_⟩
  rw [hexec]
  exact ⟨hadded.events, hadded.cancelled, hadded.phase, trivial⟩

theorem Adds.askIfThere_of_not_cancels {query : Option (Query α)}
    (h : ∀ q ∈ query, ∀ fs, (q fs).cancels = false) : Adds E (askIfThere query) := by
  cases query with
  | none => exact .pure none
  | some query => exact (Adds.ask_of_not_cancels (h query rfl)).map some

section MayCancel

variable (hcancel : ∀ c, E c .cancelled)
include hcancel

theorem Adds.cancel : Adds E cancel := by
  intro s
  obtain ⟨after, rest, hexec, hadded⟩ := exec_cancel s
  refine ⟨rest, ?_⟩
  rw [hexec]
  exact hadded.mono fun c e he => he ▸ hcancel c

theorem Adds.ask (query : Query α) : Adds E (ask query) := by
  intro s
  obtain ⟨after, rest, hexec, hadded, -⟩ := exec_ask query s
  refine ⟨rest, ?_⟩
  rw [hexec]
  exact hadded.mono fun c e he => he ▸ hcancel c

theorem Adds.askIfThere (query : Option (Query α)) : Adds E (askIfThere query) := by
  cases query with
  | none => exact .pure none
  | some query => exact (Adds.ask hcancel query).map some

theorem Adds.tell {event : α → Event} {a : α} (hevent : ∀ c, E c (event a))
    (hcancels : (event a).cancels = false) (hphase : ∀ phase, phaseAfter phase [event a] = phase)
    (listener : α → Query Unit) : Adds E (tell event listener a) :=
  Adds.bind (fun _ => .record (hevent _) hcancels (hphase _)) fun _ => .ask hcancel _

theorem Adds.play {σ : Type} {onLine : Bool → Text → σ → BuildM σ} {onPoll : σ → BuildM σ}
    (hline : ∀ isError text w, Adds E (onLine isError text w)) (hpoll : ∀ w, Adds E (onPoll w))
    (steps : List Run.Step) (w : σ) : Adds E (play onLine onPoll steps w) := by
  induction steps generalizing w with
  | nil => exact .pure w
  | cons step steps ih =>
    cases step with
    | line isError text => exact (hline isError text w).bind ih
    | change edit => exact (Adds.changeFiles edit).bind fun _ => ih w
    | log level message => exact (Adds.log level _ message).bind fun _ => ih w
    | poll => exact (hpoll w).bind ih
    | cancel => exact (Adds.cancel hcancel).bind fun _ => ih w

/-- What happens from the start of a process to its end. -/
theorem exec_launch {σ : Type} (launcher : Launcher) (spec : ProcessSpec)
    {onLine : Bool → Text → σ → BuildM σ} {onPoll : σ → BuildM σ} (w : σ) (s : State)
    (hline : ∀ isError text w, Adds E (onLine isError text w)) (hpoll : ∀ w, Adds E (onPoll w)) :
    ∃ rest,
      Added E { s with events := s.events ++ [.launched spec s.session.files] }
        (exec (launch launcher spec onLine onPoll w) s).2 rest := by
  unfold launch
  rw [exec_bind_ok (exec_get s)]
  dsimp only
  rw [exec_bind_ok (exec_record _ s)]
  refine (Adds.play hcancel hline hpoll _ w).bind (fun w' => ?_) _
  cases (launcher s.launches spec s.session.files).ending with
  | exited code => exact .pure _
  | notStarted message => exact .pure _
  | broken message => exact .throw _

/-- A launch adds itself, and what happens while the process runs. -/
theorem AddsFrom.launch {σ : Type} {launcher : Launcher} {spec : ProcessSpec}
    {onLine : Bool → Text → σ → BuildM σ} {onPoll : σ → BuildM σ} {w : σ} {s : State}
    (hlaunched : E s.cancelled (.launched spec s.session.files))
    (hline : ∀ isError text w, Adds E (onLine isError text w)) (hpoll : ∀ w, Adds E (onPoll w)) :
    AddsFrom E (launch launcher spec onLine onPoll w) s := by
  obtain ⟨rest, hrest⟩ := exec_launch hcancel launcher spec w s hline hpoll
  have hstart : Added E s { s with events := s.events ++ [.launched spec s.session.files] }
      [.launched spec s.session.files] :=
    ⟨rfl, by simp [Event.cancels], rfl, hlaunched, trivial⟩
  exact ⟨_, hstart.trans hrest⟩

end MayCancel

end Closure

/-- Whatever a step gives when it succeeds has a property. -/
def Yields {α : Type} (P : α → Prop) (m : BuildM α) : Prop :=
  ∀ s a after, exec m s = (.ok a, after) → P a

theorem Yields.pure {α : Type} {P : α → Prop} {a : α} (h : P a) : Yields P (pure a : BuildM α) := by
  intro s b after hexec
  cases hexec
  exact h

theorem Yields.bind {α β : Type} {P : β → Prop} {m : BuildM α} {f : α → BuildM β}
    (hf : ∀ a, Yields P (f a)) : Yields P (m >>= f) := by
  intro s b final hexec
  obtain ⟨a, after, -, hrest⟩ := of_exec_bind_ok hexec
  exact hf a after b final hrest

end NativeBuild.Build
