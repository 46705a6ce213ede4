import NativeBuild.Dictionary
import NativeBuild.Files.Directory
import NativeBuild.Shell.Command

/-!
# The machine that runs scripts

A shell works on files, variables and parameters, and writes to two streams. Each stream leads to
a buffer or to a file. A shell ends early when it exits or is killed; what runs in a process of
its own leaves only its files and its output behind.
-/
namespace NativeBuild

namespace Shell

/-- Where a stream leads. -/
inductive Sink where
  | buffer (index : Nat)
  | file (at_ : Location)
  | nowhere
  deriving DecidableEq, Repr

structure Machine where
  files : FileSystem
  /-- The texts written so far; the first two are output and errors of the whole. -/
  buffers : List Text := [[], []]
  bindings : Dictionary Text := []
  /-- The variables that other processes see. -/
  exported : List Text := []
  /-- The name by which the shell was called. -/
  name : Text := utf8 "sh"
  parameters : List Text := []
  status : Nat := 0
  output : Sink := .buffer 0
  errors : Sink := .buffer 1
  input : Text := []
  /-- The line of the command that runs. -/
  line : Nat := 1

/-- Why a shell ends before its script does. -/
inductive Halt where
  | exit (status : Nat)
  | killed (signal : Nat)
  deriving DecidableEq, Repr

end Shell

abbrev ShellM := ExceptT Shell.Halt (StateM Shell.Machine)

namespace Shell

/-- Writes to the end of a buffer or a file. -/
def Machine.write (m : Machine) (t : Text) : Sink → Machine
  | .buffer index => { m with buffers := m.buffers.modify index (· ++ t) }
  | .file at_ =>
    match m.files.get? at_ with
    | some (.file mode content) => { m with files := m.files.set at_ (.file mode (content ++ t)) }
    | _ => m
  | .nowhere => m

def print (t : Text) : ShellM Unit := modify fun m => m.write t m.output

def printError (t : Text) : ShellM Unit := modify fun m => m.write t m.errors

def setStatus (status : Nat) : ShellM Unit := modify fun m => { m with status }

/-- A message of the shell itself, with its name and the line. -/
def complain (message : Text) : ShellM Unit := do
  let m ← get
  printError
    (m.name ++ utf8 ": " ++ Text.ofNat m.line ++ utf8 ": " ++ message ++ utf8 "\n")

/-- Acts on the files; the result tells whether all of it was done. -/
def act {α : Type} (action : FileAction α) : ShellM (Except FileError α) := do
  let m ← get
  let (result, files) := (action.run m.files).run
  set { m with files }
  return result

/-- The number of the shell's own process. -/
def ownProcess : Text := utf8 "4242"

/-- The value of a parameter; lists are joined by blanks. -/
def Machine.value (m : Machine) (name : Text) : Text :=
  if name = utf8 "@" ∨ name = utf8 "*" then Text.join (utf8 " ") m.parameters
  else if name = utf8 "#" then Text.ofNat m.parameters.length
  else if name = utf8 "?" then Text.ofNat m.status
  else if name = utf8 "$" then ownProcess
  else if name = utf8 "0" then m.name
  else if name.all Text.isDigit then (m.parameters[Text.digitsValue name - 1]?).getD []
  else match m.bindings.get? name with
    | some v => v
    | none => if name = utf8 "PWD" then FileSystem.pathOf m.files.here else []

def assign (name value : Text) : ShellM Unit :=
  modify fun m => { m with bindings := m.bindings.insert name value }

def export_ (name : Text) : ShellM Unit :=
  modify fun m =>
    { m with exported := if m.exported.contains name then m.exported else name :: m.exported }

/-- How a process came to its end. -/
inductive Result where
  | exited (status : Nat)
  | killed (signal : Nat)
  deriving DecidableEq, Repr

/-- Runs a body in a process of its own, which starts from a prepared machine. Files and buffers
are all that it leaves behind. -/
def isolated (prepare : Machine → Machine) (body : ShellM Unit) : ShellM Result := do
  let m ← get
  let (result, after) := (body.run (prepare m)).run
  set { m with files := { after.files with here := m.files.here }, buffers := after.buffers }
  match result with
  | .ok () => return .exited after.status
  | .error (.exit status) => return .exited status
  | .error (.killed signal) => return .killed signal

/-- What a signal is called when it ends a process; interrupts and broken pipes pass in silence. -/
def signalName? : Nat → Option Text
  | 1 => some (utf8 "Hangup")
  | 2 => none
  | 3 => some (utf8 "Quit")
  | 6 => some (utf8 "Aborted")
  | 9 => some (utf8 "Killed")
  | 11 => some (utf8 "Segmentation fault")
  | 13 => none
  | 14 => some (utf8 "Alarm clock")
  | 15 => some (utf8 "Terminated")
  | n => some (utf8 "Unknown signal " ++ Text.ofNat n)

/-- Takes over the status of a process that has ended. -/
def settle : Result → ShellM Unit
  | .exited status => setStatus status
  | .killed signal => do
    match signalName? signal with
    | some name => printError (name ++ utf8 "\n")
    | none => pure ()
    setStatus (128 + signal)

/-- The same for a part of the shell itself: what kills the part kills the shell. -/
def settleOwn : Result → ShellM Unit
  | .exited status => setStatus status
  | .killed signal => throw (.killed signal)

/-- The last buffer, which is taken away. -/
def takeBuffer : ShellM Text := do
  let m ← get
  set { m with buffers := m.buffers.dropLast }
  return (m.buffers.getLast?).getD []

/-- Opens a new buffer and runs a body that writes to it: what was written, and the end. -/
def captured (body : ShellM Unit) : ShellM (Text × Result) := do
  let index := (← get).buffers.length
  modify fun m => { m with buffers := m.buffers ++ [[]] }
  let result ← isolated (fun m => { m with output := .buffer index }) body
  return (← takeBuffer, result)

/-- The message of a file that cannot be opened. -/
def openMessage (writing : Bool) (p : Path) (e : FileError) : Text :=
  if writing then
    utf8 "cannot create " ++ p ++ utf8 ": "
      ++ (if e.isAbsence then utf8 "Directory nonexistent" else e.message)
  else
    utf8 "cannot open " ++ p ++ utf8 ": " ++ (if e.isAbsence then utf8 "No such file" else e.message)

def nullDevice : Path := utf8 "/dev/null"

/-- Opens a file to write to it. -/
def openSink (append : Bool) (p : Path) : ShellM (Option Sink) := do
  if p = nullDevice then return some .nowhere
  else match ← act (if append then FileAction.append p [] else FileAction.write p []) with
    | .ok at_ => return some (.file at_)
    | .error e =>
      complain (openMessage true p e)
      return none

/-- Lets a stream lead to a sink. -/
def Machine.lead (m : Machine) (stream : Nat) (sink : Sink) : Machine :=
  match stream with
  | 1 => { m with output := sink }
  | 2 => { m with errors := sink }
  | _ => m

/-- Where a stream leads. -/
def Machine.sinkOf (m : Machine) (stream : Nat) : Sink :=
  match stream with
  | 1 => m.output
  | 2 => m.errors
  | _ => .nowhere

end Shell

end NativeBuild
