import NativeBuild.Failure
import NativeBuild.Quoting
import NativeBuild.Target

/-!
# Build options and the arguments they stand for

The options of one build fix the preprocessor definitions that the runtime is compiled with and
the arguments that the generator gets. A feature that both sides must agree on has one predicate
here, and the definitions and the arguments both ask it.
-/
namespace NativeBuild

structure BuildOptions where
  target : Target := .standaloneLinux64
  profile : Profile := .netStandard
  stripping : Stripping := .low
  allowDebugging : Bool := false
  development : Bool := false
  deepProfiling : Bool := false
  nullChecks : Bool := true
  stacktrace : Bool := false
  arrayBoundsChecks : Bool := true
  divideByZeroChecks : Bool := false
  /-- Whether the target has write barriers at all. -/
  writeBarriers : Bool := true
  writeBarrierValidation : Bool := false
  incrementalCollection : Bool := false
  /-- No build without a toolchain for the host and the target. -/
  requireSysroot : Bool := false
  monoRuntime : Bool := false
  crashReporting : Bool := false
  optimizeSize : Bool := false
  baselibDirectory : Path := []
  extraTypes : List Text := []
  additionalSources : List Path := []
  /-- Further arguments for the generator, as one text. -/
  additionalArguments : Text := []
  /-- The same, from the environment. -/
  environmentArguments : Text := []
  deriving DecidableEq, Repr

namespace BuildOptions

/-- A development build that may be debugged, with a modern profile. -/
def debugs (o : BuildOptions) : Bool := o.allowDebugging && o.development && o.profile.isModern

def validatesBarriers (o : BuildOptions) : Bool := o.writeBarriers && o.writeBarrierValidation

/-- The collector spreads its work over frames. -/
def slicesTime (o : BuildOptions) : Bool :=
  o.writeBarriers && o.incrementalCollection && o.profile.supportsTimeSlicing

/-- The definitions that every profile with native support has. -/
def commonDefines : List Text :=
  [utf8 "ALL_INTERIOR_POINTERS=1", utf8 "GC_GCJ_SUPPORT=1", utf8 "JAVA_FINALIZATION=1",
    utf8 "NO_EXECUTE_PERMISSION=1", utf8 "GC_NO_THREADS_DISCOVERY=1",
    utf8 "IGNORE_DYNAMIC_LOADING=1", utf8 "GC_DONT_REGISTER_MAIN_STATIC_DATA=1",
    utf8 "GC_VERSION_MAJOR=7", utf8 "GC_VERSION_MINOR=7", utf8 "GC_VERSION_MICRO=0",
    utf8 "GC_THREADS=1", utf8 "USE_MMAP=1", utf8 "USE_MUNMAP=1"]

/-- What the modern profiles add. -/
def modernDefines : List Text :=
  [utf8 "NET_4_0=1", utf8 "UNITY_AOT=1", utf8 "NET_STANDARD_2_0=1", utf8 "NET_UNITY_4_8=1",
    utf8 "NET_STANDARD=1"]

/-- The definitions of a profile, unless native code cannot be made for it. -/
def profileDefines? : Profile → Option (List Text)
  | .net20 | .net20Subset => some commonDefines
  | .net48 | .netStandard => some (commonDefines ++ modernDefines)
  | .net46 | .netStandard20 => none

/-- The definitions that go with the Windows headers. -/
def targetDefines (target : Target) : List Text :=
  if target.isWindows then
    [utf8 "_CRT_SECURE_NO_WARNINGS", utf8 "_WINSOCK_DEPRECATED_NO_WARNINGS", utf8 "WIN32",
      utf8 "WINDOWS", utf8 "_UNICODE", utf8 "UNICODE",
      if target = .windowsStore then utf8 "WINAPI_FAMILY=WINAPI_FAMILY_APP"
      else utf8 "WINAPI_FAMILY=WINAPI_FAMILY_DESKTOP_APP"]
  else []

def debuggerDefine : Text := utf8 "IL2CPP_MONO_DEBUGGER=1"

def validationDefine : Text := utf8 "IL2CPP_ENABLE_WRITE_BARRIER_VALIDATION=1"

def timeSliceDefine : Text := utf8 "IL2CPP_INCREMENTAL_TIME_SLICE=3"

/-- The definitions of the features that are switched on. -/
def featureDefines (o : BuildOptions) : List Text :=
  (if o.debugs then [debuggerDefine] else [])
    ++ (if o.validatesBarriers then
        [utf8 "IL2CPP_ENABLE_STRICT_WRITE_BARRIERS=1", validationDefine] else [])
    ++ (if o.validatesBarriers || o.slicesTime then
        [utf8 "IL2CPP_ENABLE_WRITE_BARRIERS=1",
          if o.slicesTime then timeSliceDefine else utf8 "IL2CPP_INCREMENTAL_TIME_SLICE=0"]
        else [])

/-- All preprocessor definitions of the build. -/
def defines (o : BuildOptions) : Except Failure (List Text) :=
  match profileDefines? o.profile with
  | none =>
    .error (.configuration (utf8 "no native defines for api profile " ++ o.profile.name))
  | some defines => .ok (defines ++ targetDefines o.target ++ o.featureDefines)

def validationFlag : Text := utf8 "--write-barrier-validation"

def timeSliceFlag : Text := utf8 "--incremental-g-c-time-slice=3"

def debuggerFlag : Text := utf8 "--enable-debugger"

/-- The arguments that generating, and compiling and linking, have in common. -/
def sharedArguments (o : BuildOptions) : List Text :=
  (if o.validatesBarriers then [validationFlag] else [])
    ++ (if o.slicesTime then [timeSliceFlag] else [])
    ++ (if o.baselibDirectory = [] then []
        else [utf8 "--baselib-directory=" ++ Quoting.quote o.baselibDirectory])
    ++ [utf8 "--avoid-dynamic-library-copy", utf8 "--dont-deploy-baselib",
        utf8 "--profiler-report"]

def debuggerArguments (o : BuildOptions) : List Text := if o.debugs then [debuggerFlag] else []

/-- The generator's name for the profile. -/
def profileName (o : BuildOptions) : Except Failure Text :=
  match o.profile with
  | .net20Subset => .ok (utf8 "legacyunity")
  | .net20 => .ok (utf8 "net20")
  | .net48 | .netStandard => .ok (utf8 "unityaot-" ++ o.target.profileSuffix)
  | .net46 | .netStandard20 =>
    .error (.configuration (utf8 "api profile " ++ o.profile.name
      ++ utf8 " is not supported by the native code generator"))

/-- Both texts of further arguments, each with a blank behind it. -/
def furtherText (o : BuildOptions) : Text :=
  (if o.additionalArguments = [] then [] else o.additionalArguments ++ utf8 " ")
    ++ (if o.environmentArguments = [] then [] else o.environmentArguments ++ utf8 " ")

/-- The further arguments as they stand in a command line: one item, or none if all is blank. -/
def furtherArguments (o : BuildOptions) : List Text :=
  let text := Text.trim o.furtherText
  if text = [] then [] else [text]

end BuildOptions

/-- Appends what is not there yet. -/
def appendUnique (arguments extra : List Text) : List Text :=
  extra.foldl (fun all x => if all.contains x then all else all ++ [x]) arguments

@[simp] theorem appendUnique_nil (arguments : List Text) : appendUnique arguments [] = arguments :=
  rfl

theorem mem_appendUnique (x : Text) (arguments extra : List Text) :
    x ∈ appendUnique arguments extra ↔ x ∈ arguments ∨ x ∈ extra := by
  induction extra generalizing arguments with
  | nil => simp [appendUnique]
  | cons y rest ih =>
    have step : appendUnique arguments (y :: rest) =
        appendUnique (if arguments.contains y then arguments else arguments ++ [y]) rest := rfl
    rw [step, ih]
    by_cases h : y ∈ arguments
    · simp only [List.contains_iff_mem.mpr h, if_true, List.mem_cons]
      constructor
      · rintro (h | h) <;> simp [h]
      · rintro (h | rfl | h) <;> simp [*]
    · simp only [List.contains_iff_mem, h, if_false, List.mem_append, List.mem_cons,
        List.not_mem_nil, or_false]
      exact or_assoc

/-- The definitions and arguments of one build. -/
structure Assembly where
  defines : List Text
  arguments : List Text
  deriving DecidableEq, Repr

/-- The definitions, and the shared arguments, the debugger's and the toolchain's. -/
def BuildOptions.assemble (o : BuildOptions) (toolchainArguments : List Text) :
    Except Failure Assembly := do
  let defines ← o.defines
  return ⟨defines,
    appendUnique (appendUnique o.sharedArguments o.debuggerArguments) toolchainArguments⟩

end NativeBuild
