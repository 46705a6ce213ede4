import NativeBuild.Build.State

/-!
# Stripping managed code

The stripping tool works on the managed directory in place. The types that native code uses are
written to a file beside that directory, which the tool is told of.
-/
namespace NativeBuild.Build

def preservedTypesFile : Text := utf8 "preserved-types.txt"

/-- The arguments of the stripping tool; an empty `preserved` names no file. -/
def stripArguments (managed : Path) (linker : Option Linker) (level : Stripping)
    (preserved : Path) : List Text :=
  [utf8 "--out=" ++ Quoting.quote managed, utf8 "--search-directory=" ++ Quoting.quote managed,
    utf8 "--i18n=none", utf8 "--core-action=link", utf8 "--stripping-level=" ++ level.name]
    ++ (match linker with
      | some linker => (utf8 "--platform=" ++ linker.platform) :: linker.arguments
      | none => [])
    ++ (if preserved = [] then []
        else [utf8 "--preserved-types-file=" ++ Quoting.quote preserved])

/-- Writes the types that have to be kept, and gives the file; without types there is none. -/
def writePreserved (managed : Path) (types : List Text) : BuildM Path := do
  if types = [] then return []
  else
    let file := Path.join (Path.parent managed) preservedTypesFile
    match ← liftSession (Session.act (FileAction.write file (linesOf types))) with
    | .ok _ => return file
    | .error _ => fail (.files (utf8 "cannot write preserved types") file)

/-- A line of the stripping tool: errors are kept and logged as warnings. -/
def onStripLine (isError : Bool) (line : Text) (errors : List Text) : BuildM (List Text) := do
  let message := utf8 "stripper: " ++ line
  if isError then
    log .warn (utf8 "invoker") message
    return errors ++ [line]
  else
    log .debug (utf8 "invoker") message
    return errors

/-- The process of the stripping tool; the types that have to be kept are written for it. -/
def stripProcess (tool : Path) (request : StripRequest) : BuildM ProcessSpec := do
  let types ← askIfThere request.usedTypes
  let preserved ← writePreserved request.managed (Dictionary.sorted (types.getD []))
  let linker ← askIfThere request.linker
  log .info (utf8 "invoker")
    (utf8 "Stripping " ++ request.managed ++ utf8 " for " ++ request.target.name
      ++ utf8 " at level " ++ request.level.name)
  return {
    executable := tool
    arguments := stripArguments request.managed linker request.level preserved
    directory := request.managed }

/-- Runs the process of the stripping tool. -/
def runStripProcess (launcher : Launcher) (spec : ProcessSpec) : BuildM Unit := do
  let (result, errors) ← launch launcher spec onStripLine pure []
  match result with
  | .error message => fail { kind := .stripFailure, message, path := spec.executable }
  | .ok 0 => return ()
  | .ok code =>
    fail
      { kind := .stripFailure
        message := utf8 "stripping tool exited with code " ++ Text.ofInt code
        path := spec.executable
        exitCode := some code
        diagnostics := errors }

/-- Runs the stripping tool. -/
def runStripTool (launcher : Launcher) (tool : Path) (request : StripRequest) : BuildM Unit := do
  if tool = [] then
    log .info (utf8 "invoker") (utf8 "No stripping tool configured, skipping managed code stripping")
  else
    let spec ← stripProcess tool request
    runStripProcess launcher spec

/-- Asks a stripper. -/
def strip (launcher : Launcher) (stripper : Stripper) (request : StripRequest) :
    BuildM Unit := do
  record (.stripping request)
  match stripper with
  | .tool tool => runStripTool launcher tool request
  | .custom strip => succeed (← ask (strip request))

end NativeBuild.Build
