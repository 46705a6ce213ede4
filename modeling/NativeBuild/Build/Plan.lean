import NativeBuild.Build.Strip

/-!
# Plans and their command lines

A plan is all that a build is made of. It fixes the arguments with which the generator converts
the managed assemblies, and those with which the native library is compiled and linked. Both
carry the flags that the definitions of the runtime are tied to.
-/
namespace NativeBuild

structure Plan where
  options : BuildOptions
  paths : BuildPaths
  generator : Path
  toolchain : Option Toolchain := none
  launcher : Launcher
  collaborators : Collaborators := {}

namespace Plan

/-- The toolchain's arguments, if there is a toolchain. -/
def toolchainArguments (p : Plan) : List Text :=
  match p.toolchain with
  | some t => t.arguments
  | none => []

/-- An argument that stands for an option which is switched on. -/
def switch (on : Bool) (argument : String) : List Text := if on then [utf8 argument] else []

/-- An option and a value between quotes. -/
def quoted (option : String) (value : Text) : Text := utf8 option ++ Quoting.quote value

/-- The additional sources in the cache, by increasing name, each as an argument. -/
def sourceArguments (p : Plan) (fs : FileSystem) (here : Path) : List Text :=
  let dir := Staging.additional here p.paths.cache
  let names := match fs.list dir with
    | .ok names => names.filter fun name => fs.isFile (Path.join dir name)
    | .error _ => []
  (Dictionary.sorted names).map fun name =>
    quoted "--additional-cpp=" (Path.absoluteNormal here (Path.join dir name))

/-- The switches in front of the profile. -/
def conversionSwitches (o : BuildOptions) : List Text :=
  [utf8 "--convert-to-cpp"]
    ++ switch o.nullChecks "--emit-null-checks"
    ++ switch o.stacktrace "--enable-stacktrace"
    ++ switch o.arrayBoundsChecks "--enable-array-bounds-check"
    ++ switch o.divideByZeroChecks "--enable-divide-by-zero-check"
    ++ switch (o.development && o.deepProfiling) "--enable-deep-profiler"
    ++ switch o.monoRuntime "--mono-runtime"

/-- The arguments for converting the assemblies of a directory. -/
def generateArguments (p : Plan) (fs : FileSystem) (managed : Path) : Except Failure (List Text) := do
  let here := FileSystem.pathOf fs.here
  let o := p.options
  let profile ← o.profileName
  let first := conversionSwitches o
    ++ [quoted "--dotnetprofile=" profile]
    ++ switch o.optimizeSize "--generics-option=EnableFullSharing"
    ++ [quoted "--cachedirectory=" (Path.absoluteNormal here p.paths.cache)]
    ++ p.sourceArguments fs here
    ++ o.debuggerArguments
  return appendUnique (appendUnique first o.sharedArguments) p.toolchainArguments
    ++ switch o.crashReporting "--emit-source-mapping"
    ++ o.furtherArguments
    ++ [quoted "--directory=" (Path.absoluteNormal here managed),
        quoted "--generatedcppdir=" (Staging.generated here p.paths.cache)]

/-- The failure of linking without a native builder. -/
def noNativeBuilder : Failure :=
  .configuration (utf8 "compile-and-link requires a native code builder")

/-- The arguments for compiling and linking the generated sources of a cache. -/
def compileLinkArguments (p : Plan) (source : Path) : BuildM (List Text) := do
  match p.collaborators.nativeBuilder with
  | none => Build.fail noNativeBuilder
  | some builder =>
    let o := p.options
    let defines ← Build.succeed o.defines
    let profile ← Build.succeed o.profileName
    let library ← Build.ask builder.libraryName
    let output := Path.join (Staging.native p.paths.cache) library
    let first ← Build.ask (builder.arguments output defines)
    let here := (← get).session.here
    return appendUnique (appendUnique (first ++ o.furtherArguments) o.sharedArguments)
        p.toolchainArguments
      ++ [quoted "--generatedcppdir=" (Staging.generated here source),
          quoted "--dotnetprofile=" profile]
      ++ o.debuggerArguments

/-- Writes the types that the generator has to keep, by increasing name, and gives the file;
without such types there is none. -/
def writeExtraTypes (p : Plan) : BuildM Path := do
  let provided ← Build.askIfThere p.collaborators.extraTypes
  let types := Dictionary.sorted (p.options.extraTypes ++ provided.getD [])
  if types = [] then return []
  else
    Build.perform (Staging.ensureDirectory p.paths.temp)
    let file := Path.join p.paths.temp Staging.extraTypesFile
    let file := (Path.absolute? (← get).session.here file).getD file
    match ← Build.liftSession (Session.act (FileAction.write file (Build.linesOf types))) with
    | .error _ => Build.fail (.files (utf8 "cannot write extra types file") file)
    | .ok _ =>
      Build.log .debug (utf8 "invoker")
        (utf8 "Wrote " ++ Text.ofNat types.length ++ utf8 " extra types to " ++ file)
      return file

end Plan

end NativeBuild
