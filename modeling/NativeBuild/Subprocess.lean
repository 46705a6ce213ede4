import NativeBuild.Host
import NativeBuild.Launcher
import NativeBuild.Shell.Evaluation

/-!
# Processes of the system

The system's launcher runs a command line in the shell, with the variables of the session and those
of the process. Its two streams are read in chunks as they come, and each is cut into lines on its
own. The host is found out by asking `uname`.
-/
namespace NativeBuild.Subprocess

/-- The number of a process, for the log. -/
def processNumber (number : Nat) : Text := Text.ofNat (1000 + number)

/-- The variables of a process: those of the session, and its own. -/
def environment (bindings : Dictionary Text) (spec : ProcessSpec) : Dictionary Text :=
  spec.environment.foldl (fun all v => Dictionary.insert v.1 v.2 all) bindings

/-- Runs the command line of a process in its directory. -/
def outcome (bindings : Dictionary Text) (spec : ProcessSpec) (fs : FileSystem) : Shell.Outcome :=
  let run (dir : Location) :=
    let outcome := Shell.run (environment bindings spec) { fs with here := dir } spec.commandLine
    { outcome with files := { outcome.files with here := fs.here } }
  if spec.directory = [] then run fs.here
  else match fs.status spec.directory with
    | .ok (dir, .directory _) => run dir
    | _ => { files := fs, output := [], errors := [], status := 127 }

/-- The lines that are delivered while chunks of the two streams are read, one after another. Once
both streams have ended, what is held back is delivered, that of the output first. -/
def deliver (output errors : Lines.Splitter) : List (Bool × Text) → List (Bool × Text)
  | [] => output.flush ++ errors.flush
  | (true, chunk) :: more =>
    let (lines, errors) := errors.feed chunk
    lines ++ deliver output errors more
  | (false, chunk) :: more =>
    let (lines, output) := output.feed chunk
    lines ++ deliver output errors more

/-- The number of bytes that one read takes at most. -/
def bufferSize : Nat := 4096

/-- What one read takes of a stream; a stream that has ended gives nothing. -/
def read (isError : Bool) (stream : Text) : List (Bool × Text) :=
  if stream = [] then [] else [(isError, stream.take bufferSize)]

/-- The reads of two streams that are written to their ends before the first read: in each round
one of either. -/
def reads : (rounds : Nat) → (output errors : Text) → List (Bool × Text)
  | 0, _, _ => []
  | rounds + 1, output, errors =>
    read false output ++ read true errors
      ++ reads rounds (output.drop bufferSize) (errors.drop bufferSize)

/-- The lines of a process that has ended. -/
def lines (outcome : Shell.Outcome) : List (Bool × Text) :=
  deliver { isError := false } { isError := true }
    (reads (max outcome.output.length outcome.errors.length) outcome.output outcome.errors)

/-- Launches processes with the variables of a session. -/
def launcher (bindings : Dictionary Text) : Launcher := fun number spec fs =>
  let outcome := outcome bindings spec fs
  { steps :=
      [.change fun _ => outcome.files,
        .log .debug (utf8 "Started pid " ++ processNumber number ++ utf8 ": " ++ spec.commandLine)]
      ++ (lines outcome).map (fun l => .line l.1 l.2)
      ++ [.log .debug (utf8 "Process " ++ processNumber number ++ utf8 " exited with code "
        ++ Text.ofNat outcome.status)]
    ending := .exited outcome.status }

/-- Output that is read in chunks: each ends with its line or after 255 bytes, and a zero byte cuts
it short. -/
def readChunks : (fuel : Nat) → Text → Text
  | 0, _ => []
  | _ + 1, [] => []
  | fuel + 1, t =>
    let line := t.takeWhile (· != Lines.lineFeed)
    let size := min 255 (if line.length < t.length then line.length + 1 else line.length)
    (t.take size).takeWhile (· != 0) ++ readChunks fuel (t.drop size)

/-- What a command line writes, if it succeeds. -/
def capture (line : Text) : SessionM (Option Text) := do
  let s ← get
  let outcome := Shell.run s.variables s.files line
  set { s with files := outcome.files }
  return if outcome.status = 0 then
    some (readChunks (outcome.output.length + 1) outcome.output)
  else none

/-- Asks the system for its platform and architecture. -/
def probe : Host.Probe := do
  match ← capture (utf8 "uname -s -m") with
  | none =>
    Session.log .warn (utf8 "host") (utf8 "uname -s -m failed")
    return {}
  | some output =>
    let findings := Host.Findings.ofDescription output
    if findings.platform.isNone then
      Session.log .warn (utf8 "host") (utf8 "Unexpected uname output: " ++ output)
    return findings

/-- What is seen of a process that is run on its own. -/
structure Report where
  ending : Run.Ending := .exited 0
  output : List Text := []
  errors : List Text := []

/-- One step of a process: lines are added to the report. -/
def Report.step (r : Report) : Run.Step → SessionM Report
  | .line false text => return { r with output := r.output ++ [text] }
  | .line true text => return { r with errors := r.errors ++ [text] }
  | .change edit => do
    modify fun s => { s with files := edit s.files }
    return r
  | .log level message => do
    Session.log level (utf8 "process") message
    return r
  | .poll | .cancel => return r

/-- Runs a process to its end. -/
def run (spec : ProcessSpec) : SessionM Report := do
  let s ← get
  let run := launcher s.variables 0 spec s.files
  run.steps.foldlM Report.step { ending := run.ending }

end NativeBuild.Subprocess
