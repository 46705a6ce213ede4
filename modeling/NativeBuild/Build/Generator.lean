import NativeBuild.Build.Plan

/-!
# Running the generator

The generator runs in the cache and writes its diagnostics to a file there, which is removed before
the start and read while the generator runs. A generator that ends with an error is reported with
the diagnostics of this run, or with the lines it wrote to its error stream if there are none.
-/
namespace NativeBuild.Plan

/-- What is kept while the generator runs. -/
structure Watch where
  tail : Diagnostic.Tail := {}
  diagnostics : List Diagnostic := []
  errors : List Text := []

/-- Stops a build that has been cancelled. -/
def checkCancelled : BuildM Unit := do
  let s ← get
  if s.cancelled then
    Build.log .info (utf8 "invoker")
      (utf8 "Build cancelled before phase " ++ s.phase.name ++ utf8 " completed")
    Build.fail .cancelled

/-- A line of the generator: errors are kept and logged as warnings. -/
def onLine (isError : Bool) (line : Text) (w : Watch) : BuildM Watch := do
  if isError then
    Build.log .warn (utf8 "process") line
    return { w with errors := w.errors ++ [line] }
  else
    Build.log .debug (utf8 "process") line
    return w

/-- A diagnostic goes to the caller's sink, or to the log. -/
def report (p : Plan) (d : Diagnostic) : BuildM Unit :=
  match p.collaborators.diagnostics with
  | some sink => Build.tell .reported sink d
  | none => do
    Build.record (.reported d)
    Build.liftSession d.log

/-- Looks at the diagnostics file, and keeps the diagnostics that are reported. -/
def watch (p : Plan) (file : Path) (look : Diagnostic.Tail.Look) (w : Watch) : BuildM Watch := do
  let ((tail, _), diagnostics) ←
    (w.tail.lookAt look file (Diagnostic.collecting p.report)).run w.diagnostics
  return { w with tail, diagnostics }

/-- What is shown of a generator that failed. -/
def Watch.shown (w : Watch) : List Text :=
  if w.diagnostics = [] then w.errors else w.diagnostics.map (·.text)

/-- Runs the process of the generator in a cache that is named from the directory `here`. -/
def runProcess (p : Plan) (here : Path) (spec : ProcessSpec) : BuildM Unit := do
  Build.perform (Staging.ensureDirectory spec.directory)
  let file := Path.join (Staging.generated here p.paths.cache) Staging.diagnosticsFile
  Build.perform
    (Staging.attempt "cannot remove stale diagnostics" file (FileAction.removeIfThere file))
  checkCancelled
  Build.log .info (utf8 "invoker")
    (utf8 "Invoking il2cpp with arguments: " ++ Text.join (utf8 " ") spec.arguments)
  let (result, w) ← Build.launch p.launcher spec onLine
    (p.watch file Diagnostic.Tail.poll) {}
  let w ← p.watch file Diagnostic.Tail.finish w
  match result with
  | .error message => Build.fail { kind := .processFailure, message, path := spec.executable }
  | .ok 0 =>
    Build.log .debug (utf8 "invoker")
      (utf8 "il2cpp finished, " ++ Text.ofNat w.tail.reported ++ utf8 " diagnostics reported")
  | .ok code =>
    Build.fail
      { kind := .processFailure
        message := utf8 "il2cpp exited with code " ++ Text.ofInt code
        path := spec.executable
        exitCode := some code
        diagnostics := w.shown }

/-- Runs the generator with some arguments; a native builder may change the process first. -/
def runGenerator (p : Plan) (arguments : List Text) (builder : Option NativeBuilder) :
    BuildM Unit := do
  let here := (← get).session.here
  let spec : ProcessSpec :=
    { executable := p.generator
      arguments := arguments ++ [utf8 "--convert-in-graph"]
      directory := Path.absoluteNormal here p.paths.cache }
  match builder with
  | some builder => p.runProcess here (← Build.ask (builder.setUp spec))
  | none => p.runProcess here spec

end NativeBuild.Plan
