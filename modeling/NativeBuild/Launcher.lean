import NativeBuild.Dictionary
import NativeBuild.Files.System
import NativeBuild.Lines
import NativeBuild.Log.Level
import NativeBuild.Quoting

/-!
# Launching processes

A process is started from a command line for the shell: the executable in quotes, then the
arguments as they stand. A launcher says what a process does from its start to its end: the lines
it writes, the changes it makes to files, and how it ends. The moments at which the diagnostics
file is looked at, and at which the build may be cancelled, are part of what happens.
-/
namespace NativeBuild

structure ProcessSpec where
  executable : Path
  arguments : List Text := []
  directory : Path := []
  environment : Dictionary Text := []
  deriving DecidableEq, Repr

/-- The command line; empty arguments are left out. -/
def ProcessSpec.commandLine (s : ProcessSpec) : Text :=
  Text.join (utf8 " ") (Quoting.quote s.executable :: s.arguments.filter (· ≠ []))

/-- What happens while a process runs. -/
inductive Run.Step where
  | line (isError : Bool) (text : Text)
  | change (edit : FileSystem → FileSystem)
  | log (level : Log.Level) (message : Text)
  /-- Someone looks at the diagnostics file. -/
  | poll
  /-- Someone cancels the build. -/
  | cancel

inductive Run.Ending where
  | exited (code : Int)
  | notStarted (message : Text)
  /-- The launcher itself broke down. -/
  | broken (message : Text)

/-- A process from its start to its end. -/
structure Run where
  steps : List Run.Step := []
  ending : Run.Ending := .exited 0

/-- What the process of a specification does, when it is started as the given number of its build
and finds the given files. -/
abbrev Launcher := (number : Nat) → ProcessSpec → FileSystem → Run

end NativeBuild
