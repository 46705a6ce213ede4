import NativeBuild.Host
import NativeBuild.Quoting
import NativeBuild.Target

/-!
# Toolchains

A toolchain serves one pair of host and target. The registry keeps one for each pair, up to the
case of letters; registering another for the same pair replaces the first. A toolchain is handed
out only once it is ready: a sysroot on disk is ready when its directories are there.
-/
namespace NativeBuild

/-- What makes a toolchain ready, and what the generator is told about it. -/
inductive Toolchain.Kind where
  | fixed (arguments : List Text) (ready : Bool)
  /-- A sysroot directory and an optional directory of tools. -/
  | sysroot (root tools : Path)
  deriving DecidableEq, Repr

structure Toolchain where
  name : Text
  hostPlatform : Text
  hostArch : Text
  targetPlatform : Text
  targetArch : Text
  kind : Toolchain.Kind
  deriving DecidableEq, Repr

namespace Toolchain

/-- A toolchain that is a sysroot directory; its platforms are kept in lower case. -/
def ofSysroot (name hostPlatform hostArch targetPlatform targetArch : Text) (root tools : Path) :
    Toolchain :=
  { name
    hostPlatform := Text.toLower hostPlatform
    hostArch := Text.toLower hostArch
    targetPlatform := Text.toLower targetPlatform
    targetArch := Text.toLower targetArch
    kind := .sysroot root tools }

/-- The arguments for the generator. -/
def arguments (t : Toolchain) : List Text :=
  match t.kind with
  | .fixed arguments _ => arguments
  | .sysroot root tools =>
    (utf8 "--sysroot-path=" ++ Quoting.quote root)
      :: (if tools = [] then [] else [utf8 "--tool-chain-path=" ++ Quoting.quote tools])

/-- Whether the toolchain can be used; says why not. -/
def makeReady (t : Toolchain) : SessionM Bool := do
  match t.kind with
  | .fixed _ ready => return ready
  | .sysroot root tools =>
    let s ← get
    if !s.files.isDirectory root then
      Session.log .warn (utf8 "toolchain") (t.name ++ utf8 ": sysroot directory missing: " ++ root)
      return false
    else if tools ≠ [] ∧ !s.files.isDirectory tools then
      Session.log .warn (utf8 "toolchain")
        (t.name ++ utf8 ": tool chain directory missing: " ++ tools)
      return false
    else return true

/-- The key of a host and a target, in lower case. -/
def key (hostPlatform hostArch targetPlatform targetArch : Text) : Text :=
  Text.toLower hostPlatform ++ utf8 "," ++ Text.toLower hostArch ++ utf8 ","
    ++ Text.toLower targetPlatform ++ utf8 "," ++ Text.toLower targetArch

def ownKey (t : Toolchain) : Text := key t.hostPlatform t.hostArch t.targetPlatform t.targetArch

end Toolchain

/-- The toolchains by key, those known to be ready, and the resolver of the host. -/
structure Registry where
  resolver : Host.Resolver := {}
  lists : Bool := false
  entries : Dictionary Toolchain := []
  ready : Dictionary Unit := []
  deriving Repr

namespace Registry

def size (r : Registry) : Nat := r.entries.length

/-- The toolchains by increasing key. -/
def toolchains (r : Registry) : List Toolchain := r.entries.map (·.2)

/-- Adds a toolchain, in the place of the one with the same key. -/
def insert (r : Registry) (t : Toolchain) : Registry :=
  { r with
    entries := r.entries.insert t.ownKey t
    ready := r.ready.filter fun e => e.1 != t.ownKey }

def register (r : Registry) (t : Toolchain) : SessionM Registry := do
  if r.lists then
    Session.log .info (utf8 "toolchain")
      (utf8 "Found sysroot: " ++ t.name ++ utf8 ", hp=" ++ t.hostPlatform ++ utf8 ", ha="
        ++ t.hostArch ++ utf8 ", tp=" ++ t.targetPlatform ++ utf8 ", ta=" ++ t.targetArch)
  match r.entries.get? t.ownKey with
  | some old =>
    Session.log .warn (utf8 "toolchain")
      (utf8 "Toolchain " ++ t.name ++ utf8 " replaces " ++ old.name ++ utf8 " for " ++ t.ownKey)
  | none => pure ()
  return r.insert t

def resolve (r : Registry) (probe : Host.Probe) : SessionM (Option Host × Registry) := do
  let (host, resolver) ← r.resolver.resolve probe
  return (host, { r with resolver })

/-- The toolchain for a target on this host, if there is one and it is ready. -/
def find (r : Registry) (probe : Host.Probe) (platform arch : Text) :
    SessionM (Option Toolchain × Registry) := do
  let (host, r) ← r.resolve probe
  match host with
  | none => return (none, r)
  | some host =>
    let key := Toolchain.key host.platform host.arch platform arch
    match r.entries.get? key with
    | none =>
      Session.log .debug (utf8 "toolchain")
        (utf8 "No toolchain for " ++ host.platform ++ utf8 "-" ++ host.arch ++ utf8 " -> "
          ++ platform ++ utf8 "-" ++ arch)
      return (none, r)
    | some t =>
      if (r.ready.get? key).isSome then return (some t, r)
      else if ← t.makeReady then
        let keeps := match t.kind with
          | .sysroot _ _ => true
          | .fixed _ _ => false
        return (some t, if keeps then { r with ready := r.ready.insert key () } else r)
      else
        Session.log .info (utf8 "toolchain") (utf8 "Failed to initialize sysroot " ++ t.name)
        return (none, r)

def findTarget (r : Registry) (probe : Host.Probe) (target : Target) :
    SessionM (Option Toolchain × Registry) :=
  match target.platformAndArch? with
  | some (platform, arch) => r.find probe platform arch
  | none => return (none, r)

/-- Host and target in one word, once the host is known. -/
def triple (r : Registry) (probe : Host.Probe) (platform arch : Text) :
    SessionM (Option Text × Registry) := do
  let (host, r) ← r.resolve probe
  return (host.map (·.triple platform arch), r)

def tripleOfTarget (r : Registry) (probe : Host.Probe) (target : Target) :
    SessionM (Option Text × Registry) :=
  match target.platformAndArch? with
  | some (platform, arch) => r.triple probe platform arch
  | none => return (none, r)

end Registry

end NativeBuild
