import NativeBuild.Files.Directory
import NativeBuild.Log.Options

/-!
# The logger

The logger passes a record to its sinks when its level reaches both the module's threshold and
the lowest threshold of all. The lowest one is kept beside the filter as a cheap first test, and
every operation that changes the filter sets it anew. A file sink collects what it writes and
hands it to the file system in larger pieces.
-/
namespace NativeBuild.Log

/-- A sink that writes to a file. `place` is missing when the file could not be opened; `offset`
is where the next piece goes, or missing when pieces go to the end of the file. -/
structure FileSink where
  place : Option Location
  format : Format
  offset : Option Nat
  pending : Text := []
  deriving Repr

namespace FileSink

/-- The file sink collects this much at most. -/
def capacity : Nat := 8191

/-- A piece of this size is never collected. -/
def large : Nat := 1024

/-- The content of a file after a piece is written at an offset. -/
def overwrite (offset : Nat) (piece old : Text) : Text :=
  old.take offset ++ List.replicate (offset - old.length) 0 ++ piece
    ++ old.drop (offset + piece.length)

/-- Hands what is collected to the file system; it is lost if the file is gone. -/
def flush (sink : FileSink) (fs : FileSystem) : FileSink × FileSystem :=
  let after := { sink with
    pending := [], offset := sink.offset.map (· + sink.pending.length) }
  match sink.place with
  | none => (after, fs)
  | some at_ =>
    match fs.get? at_ with
    | some (.file mode old) =>
      let content := match sink.offset with
        | none => old ++ sink.pending
        | some offset => overwrite offset sink.pending old
      (after, if sink.pending = [] then fs else fs.set at_ (.file mode content))
    | _ => (after, fs)

/-- Collects one piece, or passes on all when the piece is large or finds no room. -/
def put (sink : FileSink) (piece : Text) (fs : FileSystem) : FileSink × FileSystem :=
  let full := { sink with pending := sink.pending ++ piece }
  if min large (capacity - sink.pending.length) ≤ piece.length then full.flush fs else (full, fs)

/-- Writes a record on a line of its own; errors reach the file at once. -/
def write (sink : FileSink) (r : Record) (fs : FileSystem) : FileSink × FileSystem :=
  if sink.place.isNone then (sink, fs)
  else
    let (sink, fs) := sink.put (r.render sink.format) fs
    let (sink, fs) := sink.put (utf8 "\n") fs
    if Level.error ≤ r.level then sink.flush fs else (sink, fs)

/-- Opens a file to write after its end, or to write it anew. -/
def open_ (p : Path) (format : Format) (appends : Bool) (fs : FileSystem) :
    FileSink × FileSystem :=
  let action := if appends then FileAction.append p [] else FileAction.write p []
  match (action.run fs).run with
  | (.ok at_, fs) => ({ place := some at_, format, offset := if appends then none else some 0 }, fs)
  | (.error _, _) => ({ place := none, format, offset := none }, fs)

end FileSink

inductive Sink where
  /-- Keeps the records themselves. -/
  | memory
  /-- Writes to the error stream. -/
  | console (format : Format)
  | file (sink : FileSink)
  deriving Repr

structure Logger where
  filter : Filter := {}
  level : Level := .info
  sinks : List Sink := []
  deriving Repr

namespace Logger

/-- Whether a record of this level and module reaches the sinks. -/
def admits (l : Logger) (level : Level) (module : Text) : Bool :=
  l.level ≤ level && !l.sinks.isEmpty && l.filter.admits level module

def withFilter (l : Logger) (filter : Filter) : Logger :=
  { l with filter, level := filter.minimum }

def setLevel (l : Logger) (level : Level) : Logger :=
  l.withFilter { l.filter with default := level }

def setFilter (l : Logger) (specification : Text) : Logger :=
  l.withFilter (l.filter.read specification)

def addSink (l : Logger) (sink : Sink) : Logger := { l with sinks := l.sinks ++ [sink] }

def removeSinks (l : Logger) : Logger := { l with sinks := [] }

end Logger

end NativeBuild.Log
