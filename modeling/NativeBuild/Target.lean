import NativeBuild.Text

/-!
# Build targets, profiles and stripping levels

Each target has a name, the suffix that its profile takes in the generator's arguments, and a
place among the Windows targets or outside them. Names are read in any case.
-/
namespace NativeBuild

inductive Target where
  | standaloneWindows
  | standaloneWindows64
  | standaloneMac
  | standaloneLinux64
  | xboxOne
  | windowsStore
  | webGL
  | android
  | iPhone
  | cloudRendering
  deriving DecidableEq, Repr

namespace Target

def all : List Target :=
  [.standaloneWindows, .standaloneWindows64, .standaloneMac, .standaloneLinux64, .xboxOne,
    .windowsStore, .webGL, .android, .iPhone, .cloudRendering]

def name : Target → Text
  | .standaloneWindows => utf8 "StandaloneWindows"
  | .standaloneWindows64 => utf8 "StandaloneWindows64"
  | .standaloneMac => utf8 "StandaloneOSX"
  | .standaloneLinux64 => utf8 "StandaloneLinux64"
  | .xboxOne => utf8 "XboxOne"
  | .windowsStore => utf8 "WSAPlayer"
  | .webGL => utf8 "WebGL"
  | .android => utf8 "Android"
  | .iPhone => utf8 "iOS"
  | .cloudRendering => utf8 "CloudRendering"

def ofName? (t : Text) : Option Target := all.find? fun x => Text.equalsIgnoringCase t x.name

def profileSuffix : Target → Text
  | .standaloneWindows | .standaloneWindows64 => utf8 "win32"
  | .standaloneMac => utf8 "macos"
  | .standaloneLinux64 | .cloudRendering => utf8 "linux"
  | .xboxOne => utf8 "xboxone"
  | .windowsStore => utf8 "winrt"
  | .webGL => utf8 "webgl"
  | .android => utf8 "android"
  | .iPhone => utf8 "ios"

/-- The targets that are compiled with the Windows headers. -/
def isWindows : Target → Bool
  | .standaloneWindows | .standaloneWindows64 | .xboxOne | .windowsStore => true
  | _ => false

/-- The platform and architecture that a toolchain for the target is registered under. -/
def platformAndArch? : Target → Option (Text × Text)
  | .standaloneLinux64 | .cloudRendering => some (utf8 "linux", utf8 "x86_64")
  | .webGL => some (utf8 "webgl", [])
  | _ => none

end Target

/-- The managed interface that a build is made against. -/
inductive Profile where
  | net20Subset
  | net20
  | net46
  | netStandard20
  | net48
  | netStandard
  deriving DecidableEq, Repr

namespace Profile

def all : List Profile :=
  [.net20Subset, .net20, .net46, .netStandard20, .net48, .netStandard]

def name : Profile → Text
  | .net20Subset => utf8 "net20-subset"
  | .net20 => utf8 "net20"
  | .net46 => utf8 "net46"
  | .netStandard20 => utf8 "netstandard20"
  | .net48 => utf8 "net48"
  | .netStandard => utf8 "netstandard"

def ofName? (t : Text) : Option Profile := all.find? fun x => Text.equalsIgnoringCase t x.name

def isModern : Profile → Bool
  | .net48 | .netStandard => true
  | _ => false

/-- The collector can spread its work over frames. -/
def supportsTimeSlicing : Profile → Bool
  | .net46 | .netStandard20 | .net48 | .netStandard => true
  | _ => false

end Profile

/-- How much unused managed code is taken out. -/
inductive Stripping where
  | disabled
  | minimal
  | low
  | medium
  | high
  deriving DecidableEq, Repr

namespace Stripping

def all : List Stripping := [.disabled, .minimal, .low, .medium, .high]

def name : Stripping → Text
  | .disabled => utf8 "disabled"
  | .minimal => utf8 "minimal"
  | .low => utf8 "low"
  | .medium => utf8 "medium"
  | .high => utf8 "high"

def ofName? (t : Text) : Option Stripping := all.find? fun x => Text.equalsIgnoringCase t x.name

end Stripping

end NativeBuild
