import NativeBuild.Log.Logger

/-!
# Sessions

A session is what a command finds and leaves behind: the file system, the environment variables,
the logger, and what was written to the two output streams. The clock stands still. Steps that
only log or look at the environment are state functions on it.
-/
namespace NativeBuild

structure Session where
  files : FileSystem := {}
  «variables» : Dictionary Text := []
  logger : Log.Logger := {}
  time : Int := 0
  out : Text := []
  err : Text := []
  /-- The records that memory sinks keep, the first one first. -/
  records : List Log.Record := []
  deriving Repr

/-- Steps that always end. -/
abbrev SessionM := StateM Session

namespace Session

/-- Passes a record to one sink. -/
def pass (r : Log.Record) (s : Session) : Log.Sink → Log.Sink × Session
  | .memory => (.memory, { s with records := s.records ++ [r] })
  | .console format => (.console format, { s with err := s.err ++ r.render format ++ utf8 "\n" })
  | .file sink =>
    let (sink, files) := sink.write r s.files
    (.file sink, { s with files })

/-- Passes a record to every sink in turn. -/
def passAll (r : Log.Record) : Session → List Log.Sink → List Log.Sink × Session
  | s, [] => ([], s)
  | s, sink :: rest =>
    let (sink, s) := pass r s sink
    let (rest, s) := passAll r s rest
    (sink :: rest, s)

/-- Logs a message if the logger admits it. -/
def log (level : Log.Level) (module message : Text) : SessionM Unit :=
  modify fun s =>
    if s.logger.admits level module then
      let (sinks, after) := passAll ⟨level, module, message, s.time⟩ s s.logger.sinks
      { after with logger := { s.logger with sinks } }
    else s

def flushSink (s : Session) : Log.Sink → Log.Sink × Session
  | .file sink =>
    let (sink, files) := sink.flush s.files
    (.file sink, { s with files })
  | sink => (sink, s)

def flushAll : Session → List Log.Sink → List Log.Sink × Session
  | s, [] => ([], s)
  | s, sink :: rest =>
    let (sink, s) := flushSink s sink
    let (rest, s) := flushAll s rest
    (sink :: rest, s)

/-- Hands everything that sinks have collected to the file system. -/
def flushLog : SessionM Unit :=
  modify fun s =>
    let (sinks, after) := flushAll s s.logger.sinks
    { after with logger := { s.logger with sinks } }

/-- Takes all sinks away; what they have collected is not lost. -/
def closeLog : SessionM Unit := do
  flushLog
  modify fun s => { s with logger := s.logger.removeSinks }

/-- Writes to the output stream. -/
def print (t : Text) : SessionM Unit := modify fun s => { s with out := s.out ++ t }

/-- Writes to the error stream. -/
def printError (t : Text) : SessionM Unit := modify fun s => { s with err := s.err ++ t }

/-- Adds a sink for a file; the sink is there even if the file cannot be opened. -/
def addFileSink (p : Path) (format : Log.Format) (appends : Bool) : SessionM Bool := do
  let s ← get
  let (sink, files) := Log.FileSink.open_ p format appends s.files
  set { s with files, logger := s.logger.addSink (.file sink) }
  return sink.place.isSome

/-- Sets up the logger: the error stream if it is wanted, and a file if one is named and can be
opened. -/
def startLog (config : Log.Config) : SessionM Unit := do
  let mut sinks := if config.console then [Log.Sink.console config.format] else []
  if config.file ≠ [] then
    let s ← get
    let (sink, files) := Log.FileSink.open_ config.file config.format true s.files
    set { s with files }
    if sink.place.isSome then sinks := sinks ++ [.file sink]
    else printError (utf8 "warning: could not open log file: " ++ config.file ++ utf8 "\n")
  let filter := Log.Filter.read { default := config.level } config.filter
  closeLog
  modify fun s => { s with logger := { filter, level := filter.minimum, sinks } }

/-- The value of a variable; an empty value is none. -/
def setting? (name : Text) (s : Session) : Option Text :=
  match s.variables.get? name with
  | some (b :: rest) => some (b :: rest)
  | _ => none

/-- Acts on the files; the result tells whether all of it was done. -/
def act {α : Type} (action : FileAction α) : SessionM (Except FileError α) := do
  let s ← get
  let (result, files) := (action.run s.files).run
  set { s with files }
  return result

/-- The current directory as a path. -/
def here (s : Session) : Path := FileSystem.pathOf s.files.here

end Session

end NativeBuild
