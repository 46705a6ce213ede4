import NativeBuild.Text

/-!
# Failures of a build step

A failure has a kind, a message, the path it is about (empty when there is none), the exit code
of the process that caused it, and the diagnostics captured from that process. A cancelled build
is the one failure with an exit status of its own.
-/
namespace NativeBuild

inductive Failure.Kind where
  | configuration
  | toolchainNotFound
  | stripFailure
  | processFailure
  | cancelled
  | fileFailure
  | other
  deriving DecidableEq, Repr

structure Failure where
  kind : Failure.Kind
  message : Text
  path : Text := []
  exitCode : Option Int := none
  diagnostics : List Text := []
  deriving DecidableEq, Repr

namespace Failure

def Kind.name : Kind → Text
  | .configuration => utf8 "configuration error"
  | .toolchainNotFound => utf8 "toolchain not found"
  | .stripFailure => utf8 "strip failure"
  | .processFailure => utf8 "process failure"
  | .cancelled => utf8 "cancelled"
  | .fileFailure => utf8 "I/O failure"
  | .other => utf8 "error"

/-- A setting, or a pair of settings, that no build can run with. -/
def configuration (message : Text) (path : Text := []) : Failure :=
  { kind := .configuration, message, path }

/-- A file or directory operation that the file system refused. -/
def files (message path : Text) : Failure := { kind := .fileFailure, message, path }

def toolchainNotFound (message : Text) : Failure := { kind := .toolchainNotFound, message }

def cancelled : Failure := { kind := .cancelled, message := utf8 "build cancelled" }

def isCancelled (f : Failure) : Bool := f.kind == .cancelled

@[simp] theorem isCancelled_cancelled : cancelled.isCancelled = true := rfl

/-- The kind and the message, then the path and the exit code where they are known. -/
def text (f : Failure) : Text :=
  f.kind.name ++ utf8 ": " ++ f.message
    ++ (if f.path = [] then [] else utf8 " (" ++ f.path ++ utf8 ")")
    ++ (match f.exitCode with
      | none => []
      | some code => utf8 " [exit code " ++ Text.ofInt code ++ utf8 "]")

/-- The exit status of a command that ends with this failure. -/
def exitStatus (f : Failure) : Nat := if f.isCancelled then 130 else 1

end Failure

end NativeBuild
