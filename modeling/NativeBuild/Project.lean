import NativeBuild.BuildOptions
import NativeBuild.Manifest.Reader
import NativeBuild.Toolchain

/-!
# Projects

A project is what a manifest says about a build: the options, the three directories, the tools,
the native library if one is linked, and the toolchains. Relative paths in a manifest start from
the directory that the manifest is in. The environment may override the generator's folder and
add arguments.
-/
namespace NativeBuild

/-- The directory wiped in each build, the one kept between builds, and the one packaged. -/
structure BuildPaths where
  temp : Path := []
  cache : Path := []
  staging : Path := []
  deriving DecidableEq, Repr

structure Tools where
  generatorFolder : Path := []
  generatorName : Text := utf8 "il2cpp"
  /-- The stripping tool; without one nothing is stripped. -/
  stripper : Path := []
  deriving DecidableEq, Repr

/-- How the generator compiles and links the native library. -/
structure NativeLibrary where
  library : Text := []
  platform : Text := []
  architecture : Text := []
  configuration : Text := utf8 "Release"
  /-- The directory for intermediate objects; when empty, the generator chooses. -/
  cache : Path := []
  deriving DecidableEq, Repr

/-- A toolchain as a manifest declares it. -/
structure Declaration where
  name : Text := []
  hostPlatform : Text := []
  hostArch : Text := []
  targetPlatform : Text := []
  targetArch : Text := []
  sysroot : Path := []
  tools : Path := []
  deriving DecidableEq, Repr

def Declaration.toolchain (d : Declaration) : Toolchain :=
  .ofSysroot d.name d.hostPlatform d.hostArch d.targetPlatform d.targetArch d.sysroot d.tools

structure Project where
  options : BuildOptions := {}
  paths : BuildPaths := {}
  tools : Tools := {}
  native : Option NativeLibrary := none
  toolchains : List Declaration := []
  deriving DecidableEq, Repr

namespace Project

/-- Why a manifest is no project. -/
inductive Error where
  | manifest (error : Manifest.Error)
  | unknownTarget (name : Text)
  | unknownProfile (name : Text)
  | unknownStripping (name : Text)
  | incompleteNative
  | incompleteToolchain

def Error.message : Error → Text
  | .manifest error => error.message
  | .unknownTarget name => utf8 "[build] unknown build target '" ++ name ++ utf8 "'"
  | .unknownProfile name => utf8 "[build] unknown api profile '" ++ name ++ utf8 "'"
  | .unknownStripping name => utf8 "[build] unknown stripping level '" ++ name ++ utf8 "'"
  | .incompleteNative => utf8 "[native] requires library and platform"
  | .incompleteToolchain => utf8 "[[toolchain]] requires name, host-platform and target-platform"

/-- A path as it stands in a manifest of the directory `base`. -/
def placed (base p : Path) : Path :=
  if Path.isAbsolute p || base == [] then p else Path.join base p

/-- The setting `key` by its name, if it is there. -/
def named {α : Type} (s : Manifest.Section) (key : Text) (default : α) (ofName? : Text → Option α)
    (error : Text → Error) : Except Error α :=
  match s.string? key with
  | none => .ok default
  | some name =>
    match ofName? name with
    | some a => .ok a
    | none => .error (error name)

def flag (s : Manifest.Section) (key : Text) (default : Bool) : Bool := (s.bool? key).getD default

/-- The options in the table `build`. -/
def readOptions (s : Manifest.Section) (o : BuildOptions) : Except Error BuildOptions := do
  let target ← named s (utf8 "target") o.target Target.ofName? .unknownTarget
  let profile ← named s (utf8 "profile") o.profile Profile.ofName? .unknownProfile
  let stripping ← named s (utf8 "stripping") o.stripping Stripping.ofName? .unknownStripping
  return { o with
    target, profile, stripping
    allowDebugging := flag s (utf8 "allow-debugging") o.allowDebugging
    development := flag s (utf8 "development") o.development
    deepProfiling := flag s (utf8 "deep-profiling-support") o.deepProfiling
    nullChecks := flag s (utf8 "emit-null-checks") o.nullChecks
    stacktrace := flag s (utf8 "enable-stacktrace") o.stacktrace
    arrayBoundsChecks := flag s (utf8 "array-bounds-checks") o.arrayBoundsChecks
    divideByZeroChecks := flag s (utf8 "divide-by-zero-checks") o.divideByZeroChecks
    writeBarriers := flag s (utf8 "write-barriers-supported") o.writeBarriers
    writeBarrierValidation := flag s (utf8 "write-barrier-validation") o.writeBarrierValidation
    incrementalCollection := flag s (utf8 "incremental-gc") o.incrementalCollection
    requireSysroot := flag s (utf8 "require-sysroot") o.requireSysroot
    monoRuntime := flag s (utf8 "mono-runtime") o.monoRuntime
    crashReporting := flag s (utf8 "crash-reporting") o.crashReporting
    optimizeSize := flag s (utf8 "optimize-size") o.optimizeSize }

/-- The options in the table `codegen`. -/
def readGeneration (base : Path) (s : Manifest.Section) (o : BuildOptions) : BuildOptions :=
  { o with
    extraTypes := (s.strings? (utf8 "extra-types")).getD o.extraTypes
    additionalSources := o.additionalSources
      ++ ((s.strings? (utf8 "additional-cpp")).getD []).map (placed base)
    additionalArguments := (s.string? (utf8 "additional-args")).getD o.additionalArguments }

/-- The path under `key`, placed, or `default`. -/
def pathOr (base : Path) (s : Manifest.Section) (key : Text) (default : Path) : Path :=
  ((s.string? key).map (placed base)).getD default

def readPaths (base : Path) (s : Manifest.Section) (p : Project) : Project :=
  { p with
    paths :=
      { temp := pathOr base s (utf8 "temp") p.paths.temp
        cache := pathOr base s (utf8 "cache") p.paths.cache
        staging := pathOr base s (utf8 "staging") p.paths.staging }
    options := { p.options with
      baselibDirectory := pathOr base s (utf8 "baselib") p.options.baselibDirectory } }

def readTools (base : Path) (s : Manifest.Section) (t : Tools) : Tools :=
  { generatorFolder := pathOr base s (utf8 "codegen-folder") t.generatorFolder
    generatorName := (s.string? (utf8 "codegen-name")).getD t.generatorName
    stripper := pathOr base s (utf8 "stripper") t.stripper }

/-- The text under `key`, or none at all. -/
def textOf (s : Manifest.Section) (key : Text) : Text := (s.string? key).getD []

def readNative (base : Path) (s : Manifest.Section) : Except Error NativeLibrary :=
  let native : NativeLibrary :=
    { library := textOf s (utf8 "library")
      platform := textOf s (utf8 "platform")
      architecture := textOf s (utf8 "architecture")
      configuration := (s.string? (utf8 "configuration")).getD (utf8 "Release")
      cache := pathOr base s (utf8 "cache") [] }
  if native.library = [] ∨ native.platform = [] then .error .incompleteNative else .ok native

def readToolchain (base : Path) (s : Manifest.Section) : Except Error Declaration :=
  let d : Declaration :=
    { name := textOf s (utf8 "name")
      hostPlatform := textOf s (utf8 "host-platform")
      hostArch := textOf s (utf8 "host-arch")
      targetPlatform := textOf s (utf8 "target-platform")
      targetArch := textOf s (utf8 "target-arch")
      sysroot := pathOr base s (utf8 "sysroot") []
      tools := pathOr base s (utf8 "tool-chain") [] }
  if d.name = [] ∨ d.hostPlatform = [] ∨ d.targetPlatform = [] then .error .incompleteToolchain
  else .ok d

/-- The cache of a target, seen from the project's directory. -/
def defaultCache (target : Target) : Path := utf8 "Library/AotBuildCache/" ++ target.name

/-- The directories that the manifest leaves out. -/
def withDefaults (base : Path) (p : Project) : Project :=
  let orElse (given default : Path) := if given = [] then placed base default else given
  { p with
    paths :=
      { temp := orElse p.paths.temp (utf8 "Temp/AotBuild")
        cache := orElse p.paths.cache (defaultCache p.options.target)
        staging := orElse p.paths.staging (utf8 "Staging/Data") } }

/-- The project of a manifest in the directory `base`. -/
def ofDocument (base : Path) (d : Manifest.Document) : Except Error Project := do
  let p : Project := {}
  let p ← match d.table? (utf8 "build") with
    | some s => (fun options => { p with options }) <$> readOptions s p.options
    | none => pure p
  let p := match d.table? (utf8 "codegen") with
    | some s => { p with options := readGeneration base s p.options }
    | none => p
  let p := match d.table? (utf8 "paths") with
    | some s => readPaths base s p
    | none => p
  let p := match d.table? (utf8 "tools") with
    | some s => { p with tools := readTools base s p.tools }
    | none => p
  let native ← match d.table? (utf8 "native") with
    | some s => some <$> readNative base s
    | none => pure none
  let toolchains ← (d.array (utf8 "toolchain")).mapM (readToolchain base)
  return withDefaults base { p with native, toolchains }

/-- The project in the text of a manifest. -/
def parse (base : Path) (t : Text) : Except Error Project :=
  match Manifest.parse t with
  | .error e => .error (.manifest e)
  | .ok d => ofDocument base d

/-- Why no project was loaded: the message names the manifest. -/
inductive LoadError where
  | unreadable (manifest : Path)
  | invalid (manifest : Path) (error : Error)

def LoadError.message : LoadError → Text
  | .unreadable p => utf8 "cannot open " ++ p
  | .invalid p error => p ++ utf8 ": " ++ error.message

/-- Reads a manifest and makes the project. -/
def load (manifest : Path) : SessionM (Except LoadError Project) := do
  match (← get).files.read manifest with
  | .error _ => return .error (.unreadable manifest)
  | .ok content =>
    Session.log .debug (utf8 "config") (utf8 "Loading " ++ manifest)
    match parse (Path.parent manifest) content with
    | .error e => return .error (.invalid manifest e)
    | .ok p => return .ok p

end Project

/-- The variables that a build looks at. -/
structure Overrides where
  hostPlatform : Option Text := none
  hostArch : Option Text := none
  generatorFolder : Option Text := none
  additionalArguments : Option Text := none
  listsToolchains : Bool := false
  deriving DecidableEq, Repr

namespace Overrides

def ofSession (s : Session) : Overrides :=
  { hostPlatform := s.setting? (utf8 "OVERRIDE_HOST_PLATFORM")
    hostArch := s.setting? (utf8 "OVERRIDE_HOST_ARCH")
    generatorFolder := s.setting? (utf8 "AOTB_CODEGEN_PATH")
    additionalArguments := s.setting? (utf8 "AOTB_ADDITIONAL_ARGS")
    listsToolchains := (s.setting? (utf8 "AOTB_SYSROOT_DEBUG")).isSome }

/-- The project with the generator's folder and the arguments that the environment gives. -/
def apply (o : Overrides) (p : Project) : SessionM Project := do
  let p ← match o.generatorFolder with
    | some folder =>
      Session.log .info (utf8 "config")
        (utf8 "Generator folder overridden by AOTB_CODEGEN_PATH: " ++ folder)
      pure { p with tools := { p.tools with generatorFolder := folder } }
    | none => pure p
  return { p with options := { p.options with
    environmentArguments := o.additionalArguments.getD p.options.environmentArguments } }

end Overrides

end NativeBuild
