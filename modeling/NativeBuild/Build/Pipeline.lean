import NativeBuild.Build.Generator

/-!
# Running a build

A build enters its phases one after the other, and looks whether it has been cancelled each time.
A full build strips, prepares, generates, links if there is a native builder, and stages. The
other kind of build links the generated sources of another cache and stages the result.
-/
namespace NativeBuild.Plan

/-- Enters a phase, unless the build has been cancelled. -/
def enter (p : Plan) (phase : Phase) : BuildM Unit := do
  checkCancelled
  modify fun s => { s with phase }
  Build.record (.entered phase)
  Build.log .debug (utf8 "invoker") (utf8 "Entering phase " ++ phase.name)
  match p.collaborators.progress with
  | some callback => Build.tell .announced callback phase.progress
  | none => return ()

/-- Refuses a plan that cannot be built, before anything is changed. -/
def init (p : Plan) : BuildM Unit := do
  if Path.sameIgnoringCase (← get).session.here p.paths.temp p.paths.cache then
    Build.fail (.configuration
      (utf8 "the temp folder cannot be the same as the build cache directory") p.paths.temp)
  let _ ← Build.succeed p.options.defines
  let _ ← Build.succeed p.options.profileName
  return ()

/-- The managed directory of the plan. -/
def managed (p : Plan) (here : Path) : Path := Staging.managed here p.paths.staging

/-- The generator takes no assemblies that are not stripped at all. -/
def stripLevel (o : BuildOptions) : Stripping :=
  if o.stripping = .disabled then .minimal else o.stripping

/-- What the stripper of a plan is asked to do. -/
def stripRequest (p : Plan) (managed : Path) : StripRequest where
  managed
  level := stripLevel p.options
  target := p.options.target
  linker := p.collaborators.linker
  usedTypes := p.collaborators.usedTypes

def strip (p : Plan) : BuildM Unit := do
  let managed := p.managed (← get).session.here
  Build.perform (Staging.allowWriting managed)
  match p.collaborators.stripper with
  | none =>
    Build.log .info (utf8 "invoker")
      (utf8 "No stripper supplied, assemblies are used as staged")
  | some stripper => Build.strip p.launcher stripper (p.stripRequest managed)

/-- Copies an additional source into the cache, under its own name. -/
def copySource (dir source : Path) : Job Unit :=
  Staging.attempt "cannot copy additional source" source
    (FileAction.copyFile source (Path.join dir (Path.fileName source)) true)

def prepare (p : Plan) : BuildM Unit := do
  let here := (← get).session.here
  Build.perform (Staging.ensureDirectory p.paths.temp)
  let generated := Staging.generated here p.paths.cache
  Build.perform (Staging.ensureDirectory generated)
  Build.perform (Staging.allowWriting generated)
  let additional := Staging.additional here p.paths.cache
  Build.perform (Staging.recreate additional)
  p.options.additionalSources.forM fun source => Build.perform (copySource additional source)
  match p.collaborators.moreSources with
  | some moreSources => Build.ask (moreSources additional)
  | none => return ()

def generate (p : Plan) : BuildM Unit := do
  let s ← get
  let arguments ← Build.succeed
    (p.generateArguments s.session.files (p.managed s.session.here))
  checkCancelled
  let types ← p.writeExtraTypes
  let arguments := if types = [] then arguments
    else arguments ++ [quoted "--extra-types-file=" types]
  p.runGenerator arguments none
  let _ ← Build.perform
    (Staging.stamp p.paths.cache (Text.join (utf8 " ") arguments))
  return ()

/-- Makes the directory for intermediate objects, if the native builder has one. -/
def prepareNativeCache (builder : NativeBuilder) : BuildM Unit := do
  let dir ← Build.ask builder.cache
  if dir = [] then return ()
  else
    Build.perform (Staging.ensureDirectory dir)
    Build.perform (Staging.allowWriting dir)

def compileLink (p : Plan) (builder : NativeBuilder) (source : Path) : BuildM Unit := do
  prepareNativeCache builder
  Build.perform (Staging.ensureDirectory p.paths.cache)
  Build.perform (Staging.ensureDirectory (Staging.native p.paths.cache))
  let arguments ← p.compileLinkArguments source
  p.runGenerator arguments (some builder)

/-- Copies what the build made out of the cache. -/
def stage (p : Plan) : BuildM Unit := do
  let here := (← get).session.here
  let native := Staging.native p.paths.cache
  if (← get).session.files.isDirectory native then
    Build.perform (Staging.copyTree native (Staging.native p.paths.staging) true)
  let source := Staging.generated here p.paths.cache
  if (← get).session.files.isDirectory source then
    let target := Staging.generated here p.paths.temp
    Build.perform (Staging.recreate target)
    Build.perform (Staging.copyTree source target true)
    let managed := p.managed here
    if (← get).session.files.isDirectory (Staging.metadataFolder target) then
      Build.perform
        (Staging.copyMetadata p.paths.temp (Path.join managed (utf8 "Metadata")))
    if (← get).session.files.isDirectory (Staging.resourcesFolder target) then
      Build.perform
        (Staging.copyResources p.paths.temp (Path.join managed (utf8 "Resources")))
    Build.log .info (utf8 "invoker")
      (utf8 "Staged native output into " ++ p.paths.staging)

/-- The phase `stage`, and the end of the build. -/
def stageAndFinish (p : Plan) : BuildM Unit := do
  p.enter .stage
  p.stage
  p.enter .done

/-- Enters the phase and compiles and links the generated sources of a cache. -/
def enterCompileLink (p : Plan) (builder : NativeBuilder) (source : Path) : BuildM Unit := do
  p.enter .compileLink
  p.compileLink builder source

/-- A full build. -/
def run (p : Plan) : BuildM Unit := do
  p.enter .init
  p.init
  p.enter .strip
  p.strip
  p.enter .prepare
  p.prepare
  p.enter .generate
  p.generate
  match p.collaborators.nativeBuilder with
  | some builder => p.enterCompileLink builder p.paths.cache
  | none => pure ()
  p.stageAndFinish

/-- Links the generated sources of another cache, and stages the result. -/
def runCompileLink (p : Plan) (source : Path) : BuildM Unit := do
  if Path.sameIgnoringCase (← get).session.here source p.paths.cache then
    Build.fail (.configuration
      (utf8 "the source cache directory cannot be the same as the build cache directory") source)
  else match p.collaborators.nativeBuilder with
    | none => Build.fail noNativeBuilder
    | some builder =>
      p.enter .init
      p.init
      p.enterCompileLink builder source
      p.stageAndFinish

end NativeBuild.Plan
