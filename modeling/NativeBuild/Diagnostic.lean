import NativeBuild.Json.Reader
import NativeBuild.Lines
import NativeBuild.Session

/-!
# Diagnostics of the generator

The generator writes its diagnostics to a file, one JSON object per line. A record needs a `type`
and a `text`, both strings; the place in a source file is optional. The file is read while it
grows, and a record is taken once its line is complete, or at the end as it stands. A file that
became shorter is read again from its start.
-/
namespace NativeBuild

inductive Severity where
  | error
  | warning
  | info
  | message
  deriving DecidableEq, Repr

namespace Severity

def name : Severity → Text
  | .error => utf8 "error"
  | .warning => utf8 "warning"
  | .info => utf8 "info"
  | .message => utf8 "message"

/-- The severity of a record's type, in any case; other types are plain messages. -/
def ofType (t : Text) : Severity :=
  if Text.equalsIgnoringCase t (utf8 "error") then .error
  else if Text.equalsIgnoringCase t (utf8 "warning") then .warning
  else if Text.equalsIgnoringCase t (utf8 "info") then .info
  else .message

/-- The level at which a diagnostic is logged. -/
def level : Severity → Log.Level
  | .error => .error
  | .warning => .warn
  | .info | .message => .info

end Severity

structure Diagnostic where
  severity : Severity
  message : Text
  file : Option Text := none
  line : Option Int := none
  column : Option Int := none
  deriving DecidableEq, Repr

namespace Diagnostic

/-- The place as far as it is known, the severity and the message. A line is only written behind
a file, and a column behind a line. -/
def text (d : Diagnostic) : Text :=
  let place := match d.file with
    | none => []
    | some file =>
      file
        ++ (match d.line with
          | none => []
          | some line =>
            utf8 ":" ++ Text.ofInt line
              ++ (match d.column with
                | none => []
                | some column => utf8 ":" ++ Text.ofInt column))
        ++ utf8 ": "
  place ++ d.severity.name ++ utf8 ": " ++ d.message

/-- The greatest line or column that is kept. -/
def maxPosition : Int := 2147483647

/-- A line or a column: an integer that is not negative and not too large. -/
def position? (record : Json.Value) (key : Text) : Option Int := do
  let i ← (← record.member? key).integer?
  if 0 ≤ i ∧ i ≤ maxPosition then some i else none

/-- The diagnostic in a record. -/
def ofValue? (record : Json.Value) : Option Diagnostic := do
  let type ← (← record.member? (utf8 "type")).string?
  let message ← (← record.member? (utf8 "text")).string?
  return {
    severity := .ofType type
    message
    file := (record.member? (utf8 "file")).bind (·.string?)
    line := position? record (utf8 "line")
    column := position? record (utf8 "column") }

/-- Why a line is no record. -/
inductive Refusal where
  | malformed (error : Json.Error)
  | incomplete

/-- The diagnostic on a line. -/
def read (line : Text) : Except Refusal Diagnostic :=
  match Json.parse line with
  | .error e => .error (.malformed e)
  | .ok record =>
    match ofValue? record with
    | some d => .ok d
    | none => .error .incomplete

def parse? (line : Text) : Option Diagnostic := (read line).toOption

/-- Where reading of the file stands: how much of it was read, the part of a line that is held
back, and how many records were taken and refused. -/
structure Tail where
  offset : Nat := 0
  pending : Text := []
  reported : Nat := 0
  refused : Nat := 0
  deriving DecidableEq, Repr

/-- What happens while the file is read. -/
inductive Event where
  | restarted
  | reported (diagnostic : Diagnostic)
  | refused (cause : Refusal)

/-- What comes of one line. -/
def Event.ofLine (line : Text) : Event :=
  match read line with
  | .ok d => .reported d
  | .error cause => .refused cause

/-- A line of blanks alone is no record. -/
def isBlankLine (line : Text) : Bool := Text.trim line == []

def Event.diagnostic? : Event → Option Diagnostic
  | .reported d => some d
  | _ => none

/-- What comes of each line that is not blank. -/
def events (lines : List Text) : List Event :=
  (lines.filter fun line => !isBlankLine line).map Event.ofLine

/-- The diagnostics that were taken. -/
def taken (events : List Event) : List Diagnostic := events.filterMap Event.diagnostic?

namespace Tail

def count (t : Tail) (events : List Event) : Tail :=
  let refused := events.filter fun
    | .refused _ => true
    | _ => false
  { t with reported := t.reported + (taken events).length, refused := t.refused + refused.length }

/-- Reads on in a file of this content. -/
def readOn (content : Text) (t : Tail) : Tail × List Event :=
  let pending := t.pending ++ content.drop t.offset
  let events := events (Lines.complete pending)
  ({ t.count events with offset := content.length, pending := Lines.rest pending }, events)

/-- Looks at the file once more; as long as it is missing, nothing happens. -/
def poll (content : Option Text) (t : Tail) : Tail × List Event :=
  match content with
  | none => (t, [])
  | some content =>
    if content.length < t.offset then
      let (t, events) := readOn content { t with offset := 0, pending := [] }
      (t, .restarted :: events)
    else readOn content t

/-- The last look: what is held back is taken for a line. -/
def finish (content : Option Text) (t : Tail) : Tail × List Event :=
  let (t, before) := t.poll content
  let last := events [t.pending]
  ({ t.count last with pending := [] }, before ++ last)

/-- A way to look at a file with some content, or none if it is missing. -/
abbrev Look := Option Text → Tail → Tail × List Event

end Tail

/-- Logs a diagnostic at the level of its severity. -/
def log (d : Diagnostic) : SessionM Unit :=
  Session.log d.severity.level (utf8 "diag") d.text

/-- The content of a file that may be missing. -/
def contentOf (file : Path) : SessionM (Option Text) := do
  return ((← get).files.read file).toOption

/-- Logs what is come upon in a file besides diagnostics. -/
def Event.note (file : Path) : Event → SessionM Unit
  | .restarted =>
    Session.log .debug (utf8 "diag") (utf8 "Diagnostics file shrank, rereading " ++ file)
  | .reported _ => return ()
  | .refused cause => do
    match cause with
    | .malformed e =>
      Session.log .debug (utf8 "diag") (utf8 "Malformed diagnostic record: " ++ e.text)
    | .incomplete => pure ()
    Session.log .warn (utf8 "diag") (utf8 "Skipping unreadable diagnostic record in " ++ file)

/-! A sink takes one diagnostic after the other. It may work in a session alone, or in anything
that has a session to work in. -/

variable {m : Type → Type} [Monad m]

/-- A sink that hands each diagnostic on to another one and keeps it. -/
def collecting (report : Diagnostic → m Unit) (d : Diagnostic) : StateT (List Diagnostic) m Unit :=
  do
    report d
    modify (· ++ [d])

variable [MonadLiftT SessionM m]

/-- Hands a diagnostic to the sink, and logs whatever else is come upon in a file. -/
def Event.tell (file : Path) (report : Diagnostic → m Unit) : Event → m Unit
  | .reported d => report d
  | e => liftM (e.note file)

/-- Looks at a file: each new diagnostic goes to the sink, and their number is returned. -/
def Tail.lookAt (t : Tail) (look : Tail.Look) (file : Path) (report : Diagnostic → m Unit) :
    m (Tail × Nat) := do
  let (t, events) := look (← contentOf file) t
  events.forM (Event.tell file report)
  return (t, (taken events).length)

end Diagnostic

end NativeBuild
