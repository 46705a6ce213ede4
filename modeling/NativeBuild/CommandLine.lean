import NativeBuild.Build.Locate
import NativeBuild.Build.Pipeline
import NativeBuild.Subprocess

/-!
# The command line

The arguments of the command line make a request; what is asked for is done in a session, which
keeps what was printed, and gives the exit status: zero for success, 130 for a build that was
cancelled, and one for any other failure. Logging options are taken out before the request is read.
-/
namespace NativeBuild.CommandLine

def version : Text := utf8 "0.3.0"

def usage : Text :=
  utf8 "aotb " ++ version ++ utf8 " - ahead-of-time native build orchestrator\n\n"
    ++ utf8 "Usage:\n"
    ++ utf8 "  aotb build [--config=<file>]\n"
    ++ utf8 "  aotb compile-link --source-cache=<dir> [--config=<file>]\n"
    ++ utf8 "  aotb toolchains [--config=<file>]\n"
    ++ utf8 "  aotb triple <target-platform> [<target-arch>]\n\n"
    ++ utf8 "Logging:\n"
    ++ utf8 "  --log-level=<level>   trace, debug, info, warn, error, off\n"
    ++ utf8 "  --log-filter=<spec>   e.g. toolchain=debug,*=warn\n"
    ++ utf8 "  --log-file=<path>     also write logs to a file\n"
    ++ utf8 "  --log-format=<fmt>    text or json\n"
    ++ utf8 "  -q, -v, -vv, -vvv     quieter or more verbose output\n"

/-- What the arguments ask for. -/
inductive Request where
  | help
  | version
  | build (manifest : Path)
  | compileLink (manifest source : Path)
  | toolchains (manifest : Path)
  | triple (platform arch : Text)
  | unknownOption (option : Text)
  | missingSource
  | wrongTriple
  | unknownCommand (command : Text)
  deriving DecidableEq, Repr

/-- The arguments behind the command, as far as they are read. -/
structure Reading where
  manifest : Path := utf8 "aotb.toml"
  source : Path := []
  others : List Text := []
  /-- The first option that there is not. -/
  unknown : Option Text := none

/-- One argument more. -/
def Reading.push (r : Reading) (argument : Text) : Reading :=
  if r.unknown.isSome then r
  else match Text.dropHead? (utf8 "--config=") argument with
    | some manifest => { r with manifest }
    | none =>
      match Text.dropHead? (utf8 "--source-cache=") argument with
      | some source => { r with source }
      | none =>
        if (utf8 "--").isPrefixOf argument then { r with unknown := some argument }
        else { r with others := r.others ++ [argument] }

/-- The request of a command and the arguments behind it. -/
def Reading.request (r : Reading) (command : Text) : Request :=
  match r.unknown with
  | some option => .unknownOption option
  | none =>
    if command = utf8 "build" then .build r.manifest
    else if command = utf8 "compile-link" then
      if r.source = [] then .missingSource else .compileLink r.manifest r.source
    else if command = utf8 "toolchains" then .toolchains r.manifest
    else if command = utf8 "triple" then
      match r.others with
      | [platform] => .triple platform []
      | [platform, arch] => .triple platform arch
      | _ => .wrongTriple
    else .unknownCommand command

/-- The request of the arguments that are no logging options. -/
def Request.parse : List Text → Request
  | [] => .help
  | command :: rest =>
    if command = utf8 "--help" ∨ command = utf8 "-h" then .help
    else if command = utf8 "--version" ∨ command = utf8 "-V" then .version
    else (rest.foldl Reading.push {}).request command

/-- Prints an error. -/
def complain (message : Text) : SessionM Unit :=
  Session.printError (utf8 "error: " ++ message ++ utf8 "\n")

/-- Prints a failure; the exit status that goes with it. -/
def reportFailure (f : Failure) : SessionM Nat := do
  if f.isCancelled then Session.printError (utf8 "build cancelled\n")
  else
    complain f.text
    f.diagnostics.forM fun line => Session.printError (utf8 "  " ++ line ++ utf8 "\n")
  return f.exitStatus

/-- Loads a project, with what the environment overrides and the toolchains that it declares. -/
def openProject (manifest : Path) : SessionM (Except Project.LoadError (Project × Registry)) := do
  match ← Project.load manifest with
  | .error e => return .error e
  | .ok project =>
    let overrides := Overrides.ofSession (← get)
    let project ← overrides.apply project
    let empty : Registry :=
      { resolver := { platform := overrides.hostPlatform, arch := overrides.hostArch }
        lists := overrides.listsToolchains }
    let registry ← project.toolchains.foldlM (fun r d => r.register d.toolchain) empty
    return .ok (project, registry)

/-- The host that is taken where none could be found out. -/
def defaultHost : Host := ⟨utf8 "linux", utf8 "x86_64"⟩

/-- The whole percents of a part, which is a single-precision number that is not negative, by its
bits. A hundred times the part is rounded to 24 significant bits before its fraction is dropped. -/
def percent (part : UInt32) : Nat :=
  let field := part.toNat / Nat.pow 2 23
  let significand := part.toNat % Nat.pow 2 23 + if field = 0 then 0 else Nat.pow 2 23
  let product := 100 * significand
  let excess := Nat.log2 product - 23
  Binary64.roundRatio product (Nat.pow 2 excess) * Nat.pow 2 (excess + max field 1) / Nat.pow 2 150

/-- A percentage in three columns and the name of a phase. -/
def progressLine (progress : Progress) : Text :=
  let digits := Text.ofNat (percent progress.fraction)
  utf8 "[" ++ List.replicate (3 - digits.length) (byte ' ') ++ digits ++ utf8 "%] "
    ++ progress.phase.name ++ utf8 "\n"

/-- The toolchain for the project's target; a project may demand one. -/
def chooseToolchain (project : Project) (registry : Registry) : Job (Option Toolchain) := do
  let target := project.options.target
  let (found, registry) ← (registry.findTarget Subprocess.probe target : SessionM _)
  match found with
  | some t =>
    Session.log .info (utf8 "cli") (utf8 "Using sysroot " ++ t.name)
    return some t
  | none =>
    if project.options.requireSysroot then
      let (triple, _) ← (registry.tripleOfTarget Subprocess.probe target : SessionM _)
      throw (.toolchainNotFound (utf8 "no sysroot registered for " ++ target.name
        ++ (match triple with
          | some triple => utf8 " (" ++ triple ++ utf8 ")"
          | none => [])))
    else
      Session.log .info (utf8 "cli") (utf8 "No sysroot for " ++ target.name)
      return none

/-- The plan of a project. -/
def plan (project : Project) (registry : Registry) : Job Plan := do
  let (host, registry) ← (registry.resolve Subprocess.probe : SessionM _)
  if host.isNone then
    Session.log .warn (utf8 "cli")
      (utf8 "Host platform could not be determined; assuming linux x86_64")
  let generator ← project.tools.locate (host.getD defaultHost)
  let toolchain ← chooseToolchain project registry
  return {
    options := project.options
    paths := project.paths
    generator, toolchain
    launcher := Subprocess.launcher (← get).variables
    collaborators := {
      stripper := some (.tool project.tools.stripper)
      nativeBuilder := project.native.map NativeLibrary.builder
      progress := some fun progress _ => { value := (), printed := progressLine progress } } }

/-- Runs a build in the session. -/
def runBuild (build : BuildM Unit) : SessionM (Except Build.Stop Unit) := do
  let (result, after) := (build.run { session := ← get }).run
  set after.session
  return result

/-- Makes the plan of a project and runs one of its builds. -/
def buildWith (manifest : Path) (build : Plan → BuildM Unit) : SessionM Nat := do
  match ← openProject manifest with
  | .error e =>
    complain e.message
    return 1
  | .ok (project, registry) =>
    match ← (plan project registry).run with
    | .error failure => reportFailure failure
    | .ok plan =>
      match ← runBuild (build plan) with
      | .ok () => return 0
      | .error (.failed failure) => reportFailure failure
      | .error (.broken message) =>
        complain message
        return 1

/-- Lists the toolchains of a project. -/
def listToolchains (manifest : Path) : SessionM Nat := do
  match ← openProject manifest with
  | .error e =>
    complain e.message
    return 1
  | .ok (_, registry) =>
    if registry.size = 0 then
      Session.print (utf8 "No toolchains declared in " ++ manifest ++ utf8 "\n")
    else
      registry.toolchains.forM fun t =>
        Session.print
          (t.name ++ utf8 "  " ++ t.hostPlatform ++ utf8 "/" ++ t.hostArch ++ utf8 " -> "
            ++ t.targetPlatform ++ utf8 "/" ++ t.targetArch ++ utf8 "\n")
    return 0

/-- Prints host and target in one word. -/
def printTriple (platform arch : Text) : SessionM Nat := do
  let overrides := Overrides.ofSession (← get)
  let registry : Registry :=
    { resolver := { platform := overrides.hostPlatform, arch := overrides.hostArch } }
  match ← registry.triple Subprocess.probe platform arch with
  | (some triple, _) =>
    Session.print (triple ++ utf8 "\n")
    return 0
  | (none, _) =>
    complain (utf8 "host platform could not be determined")
    return 1

/-- Does what is asked for; the exit status. -/
def Request.perform : Request → SessionM Nat
  | .help => do
    Session.print usage
    return 0
  | .version => do
    Session.print (utf8 "aotb " ++ CommandLine.version ++ utf8 "\n")
    return 0
  | .build manifest => buildWith manifest Plan.run
  | .compileLink manifest source => buildWith manifest (·.runCompileLink source)
  | .toolchains manifest => listToolchains manifest
  | .triple platform arch => printTriple platform arch
  | .unknownOption option => do
    complain (utf8 "unknown option " ++ option)
    return 1
  | .missingSource => do
    Session.printError
      (utf8 "Usage: aotb compile-link --source-cache=<dir> [--config=<file>]\n")
    return 1
  | .wrongTriple => do
    Session.printError (utf8 "Usage: aotb triple <target-platform> [<target-arch>]\n")
    return 1
  | .unknownCommand command => do
    complain (utf8 "unknown command '" ++ command ++ utf8 "'\n")
    Session.print usage
    return 1

/-- Runs the command line with its arguments. -/
def run (arguments : List Text) : SessionM Nat := do
  Session.startLog
    (Log.Options.parse arguments ((← get).variables.get? (utf8 "AOTB_LOG")))
  (Request.parse (arguments.filter fun a => !Log.Options.isOption a)).perform

end NativeBuild.CommandLine
