import NativeBuild.Session

/-!
# The host of a build

A host is a platform and an architecture. A resolver asks a probe for both, puts overrides in
their place, and keeps the first host that it finds complete; until then it asks again each time.
-/
namespace NativeBuild

structure Host where
  platform : Text
  arch : Text
  deriving DecidableEq, Repr

namespace Host

/-- What a probe found out; each part may be missing. -/
structure Findings where
  platform : Option Text := none
  arch : Option Text := none
  deriving DecidableEq, Repr

/-- Lower case, with the two other names of known architectures replaced. -/
def normalizeArch (arch : Text) : Text :=
  let arch := Text.toLower arch
  if arch = utf8 "amd64" then utf8 "x86_64"
  else if arch = utf8 "i686" then utf8 "x86"
  else arch

/-- The first two words of a system description: platform and architecture. -/
def Findings.ofDescription (t : Text) : Findings :=
  match Text.splitAny (utf8 " \r\n") t with
  | platform :: arch :: _ => ⟨some (Text.toLower platform), some (normalizeArch arch)⟩
  | _ => {}

/-- A source of findings; asking may change the session. -/
abbrev Probe := SessionM Findings

/-- Overrides, and the host once it is known. -/
structure Resolver where
  platform : Option Text := none
  arch : Option Text := none
  found : Option Host := none
  deriving Repr

/-- The findings with the overrides in their place, in lower case. -/
def Resolver.override (r : Resolver) (f : Findings) : Findings :=
  ⟨(r.platform.map Text.toLower).or f.platform, (r.arch.map Text.toLower).or f.arch⟩

/-- The host of complete findings. -/
def Findings.host? (f : Findings) : Option Host := do
  return ⟨← f.platform, ← f.arch⟩

/-- The known host, or one that the probe and the overrides complete. -/
def Resolver.resolve (r : Resolver) (probe : Probe) : SessionM (Option Host × Resolver) := do
  match r.found with
  | some host => return (some host, r)
  | none =>
    match (r.override (← probe)).host? with
    | none =>
      Session.log .debug (utf8 "host") (utf8 "Host environment could not be determined")
      return (none, r)
    | some host =>
      Session.log .debug (utf8 "host")
        (utf8 "Host environment: " ++ host.platform ++ utf8 " " ++ host.arch)
      return (some host, { r with found := some host })

/-- The host as it is written in front of a target. -/
def label (h : Host) : Text :=
  let platform :=
    if h.platform = utf8 "darwin" then utf8 "macos"
    else if h.platform = utf8 "windows" then utf8 "win"
    else h.platform
  platform ++ utf8 "-" ++ h.arch

/-- Host and target in one word; the host is left out where both are written alike. -/
def triple (h : Host) (platform arch : Text) : Text :=
  let target := platform ++ utf8 "-" ++ arch
  if h.label = target then target else h.label ++ utf8 "-" ++ target

def isWindows (h : Host) : Bool := h.platform == utf8 "windows"

def isMac (h : Host) : Bool := h.platform == utf8 "darwin"

def isMacArm (h : Host) : Bool := h.isMac && h.arch == utf8 "arm64"

/-- The folder of the runtime that the tools on this host are built for. -/
def runtimeFolder (h : Host) : Text := if h.isMacArm then utf8 "net6.0" else utf8 "net5.0"

/-- The name of the runtime on this host. -/
def runtimeName (h : Host) : Text :=
  if h.isWindows then utf8 "win-x64"
  else if h.isMac then (if h.isMacArm then utf8 "osx-arm64" else utf8 "osx-x64")
  else utf8 "linux-x64"

end Host

end NativeBuild
