import NativeBuild.Build.Collaborators
import NativeBuild.Staging

/-!
# The state of a build

A build works in a session. It can be cancelled by anyone who takes part in it, and it keeps a
record of what happened: the phases entered and announced, the strippers asked, the processes
launched with the files they found, the diagnostics reported, and the moment of cancellation.
A build stops at the first failure, or when a launcher breaks down.
-/
namespace NativeBuild

namespace Build

inductive Event where
  | entered (phase : Phase)
  /-- The progress callback was told this. -/
  | announced (progress : Progress)
  | stripping (request : StripRequest)
  | launched (spec : ProcessSpec) (files : FileSystem)
  /-- The diagnostic was handed to the caller or to the log. -/
  | reported (diagnostic : Diagnostic)
  | cancelled

structure State where
  session : Session
  cancelled : Bool := false
  /-- The phase entered last. -/
  phase : Phase := .init
  /-- What happened, the first event first. -/
  events : List Event := []

/-- Why a build stops early. -/
inductive Stop where
  | failed (failure : Failure)
  | broken (message : Text)

end Build

abbrev BuildM := ExceptT Build.Stop (StateM Build.State)

namespace Build

def record (e : Event) : BuildM Unit := modify fun s => { s with events := s.events ++ [e] }

/-- The number of processes launched so far. -/
def State.launches (s : State) : Nat :=
  (s.events.filter fun
    | .launched _ _ => true
    | _ => false).length

/-- Cancels the build; once cancelled it stays so. -/
def cancel : BuildM Unit :=
  modify fun s =>
    if s.cancelled then s else { s with cancelled := true, events := s.events ++ [.cancelled] }

/-- A step of the session. -/
def liftSession {α : Type} (step : SessionM α) : BuildM α := do
  let s ← get
  let (a, session) := step.run s.session
  set { s with session }
  return a

-- The priority keeps the state of the build before the session in it.
instance (priority := low) : MonadLift SessionM BuildM := ⟨liftSession⟩

/-- A task of the session; its failure stops the build. -/
def perform {α : Type} (task : Job α) : BuildM α := do
  match ← liftSession task.run with
  | .ok a => return a
  | .error failure => throw (.failed failure)

def fail {α : Type} (failure : Failure) : BuildM α := throw (.failed failure)

/-- The value, or the failure that stops the build. -/
def succeed {α : Type} (result : Except Failure α) : BuildM α :=
  match result with
  | .ok a => return a
  | .error failure => fail failure

def log (level : Log.Level) (module message : Text) : BuildM Unit :=
  liftSession (Session.log level module message)

def changeFiles (change : FileSystem → FileSystem) : BuildM Unit :=
  modify fun s => { s with session := { s.session with files := change s.session.files } }

/-- Asks a collaborator. -/
def ask {α : Type} (query : Query α) : BuildM α := do
  let reply := query (← get).session.files
  changeFiles reply.change
  liftSession (Session.print reply.printed)
  if reply.cancels then cancel
  return reply.value

/-- Asks a collaborator that may be missing. -/
def askIfThere {α : Type} (query : Option (Query α)) : BuildM (Option α) :=
  match query with
  | some query => some <$> ask query
  | none => return none

/-- Tells a collaborator something, and keeps a record of what it was told. -/
def tell {α : Type} (event : α → Event) (listener : α → Query Unit) (a : α) : BuildM Unit := do
  record (event a)
  ask (listener a)

/-- Goes through the steps of a process, with a value that lines and looks at the diagnostics file
may change. -/
def play {σ : Type} (onLine : Bool → Text → σ → BuildM σ) (onPoll : σ → BuildM σ) :
    List Run.Step → σ → BuildM σ
  | [], w => return w
  | .line isError text :: rest, w => do play onLine onPoll rest (← onLine isError text w)
  | .change edit :: rest, w => do
    changeFiles edit
    play onLine onPoll rest w
  | .log level message :: rest, w => do
    log level (utf8 "process") message
    play onLine onPoll rest w
  | .poll :: rest, w => do play onLine onPoll rest (← onPoll w)
  | .cancel :: rest, w => do
    cancel
    play onLine onPoll rest w

/-- Launches a process and follows it to its end: the exit code, or why it was not started. -/
def launch {σ : Type} (launcher : Launcher) (spec : ProcessSpec)
    (onLine : Bool → Text → σ → BuildM σ) (onPoll : σ → BuildM σ) (w : σ) :
    BuildM (Except Text Int × σ) := do
  let s ← get
  record (.launched spec s.session.files)
  let run := launcher s.launches spec s.session.files
  let w ← play onLine onPoll run.steps w
  match run.ending with
  | .exited code => return (.ok code, w)
  | .notStarted message => return (.error message, w)
  | .broken message => throw (.broken message)

/-- A text per line. -/
def linesOf (texts : List Text) : Text := texts.flatMap (· ++ utf8 "\n")

end Build

end NativeBuild
