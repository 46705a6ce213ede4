import NativeBuild.Files.Resolve

/-!
# Single file operations

Each operation resolves its path, and changes at most one location; removing a directory needs it
empty. A refused operation leaves the file system as it was. The owner may do everything, so
permission bits are kept and reported but refuse nothing; new files and directories get the bits
that the mask `0o022` leaves.
-/
namespace NativeBuild

/-- Operations on a file system that may be refused part of the way: what was done stays done. -/
abbrev FileAction := ExceptT FileError (StateM FileSystem)

namespace FileSystem

/-- The entry at the end of a path. -/
def entryAt (fs : FileSystem) (follow : Bool) (p : Path) : Except FileError (Location × Entry) := do
  match ← fs.resolve follow p with
  | .entry at_ entry => return (at_, entry)
  | .free _ => throw .notFound

/-- What a path leads to, once all links are followed. -/
def status (fs : FileSystem) (p : Path) : Except FileError (Location × Entry) := fs.entryAt true p

def isDirectory (fs : FileSystem) (p : Path) : Bool :=
  match fs.status p with
  | .ok (_, entry) => entry.isDirectory
  | .error _ => false

def isFile (fs : FileSystem) (p : Path) : Bool :=
  match fs.status p with
  | .ok (_, entry) => entry.isFile
  | .error _ => false

/-- Something is there; a path that cannot even be looked up leads nowhere. -/
def doesExist (fs : FileSystem) (p : Path) : Bool := (fs.status p).isOk

/-- The content of a file; a directory can be opened, but nothing can be read from it. -/
def read (fs : FileSystem) (p : Path) : Except FileError Text := do
  match ← fs.status p with
  | (_, .file _ content) => return content
  | _ => return []

/-- The names in the directory at a path. -/
def list (fs : FileSystem) (p : Path) : Except FileError (List Text) := do
  match ← fs.status p with
  | (at_, .directory _) => return fs.names at_
  | _ => throw .notDirectory

end FileSystem

namespace FileAction

/-- The bits that no new file or directory gets. -/
def mask : Nat := 0o022

def maskedMode (mode : Nat) : Nat := mode &&& 0o7777 &&& (0o7777 ^^^ mask)

/-- A view of the file system that may be refused. -/
def ask {α : Type} (view : FileSystem → Except FileError α) : FileAction α := do
  match view (← get) with
  | .ok a => return a
  | .error e => throw e

/-- Makes one directory at a free name. -/
def makeDirectory (p : Path) (mode : Nat := 0o777) : FileAction Unit := do
  let fs ← get
  match ← ask (·.resolveLeaf p) with
  | .name at_ _ =>
    if (fs.get? at_).isSome then throw .alreadyExists
    else set (fs.set at_ (.directory (maskedMode mode)))
  | _ => throw .alreadyExists

/-- Removes a file, a link or an empty directory. -/
def remove (p : Path) : FileAction Unit := do
  let fs ← get
  match ← ask (·.resolveLeaf p) with
  | .root => throw .busy
  | .dot => throw .invalidArgument
  | .dotDot => throw .notEmpty
  | .name at_ slashed =>
    match fs.get? at_ with
    | none => throw .notFound
    | some (.directory _) =>
      if (fs.names at_).isEmpty then set (fs.erase at_) else throw .notEmpty
    | some _ => if slashed then throw .notDirectory else set (fs.erase at_)

/-- Where a file opened for writing stands. With `fresh`, no entry may stand there before, not
even a link. -/
def writable (p : Path) (fresh : Bool) : FileAction (Location × Option Entry) := do
  match ← ask (·.resolveLeaf p) with
  | .name _ false =>
    match ← ask (·.resolve (!fresh) p) with
    | .free at_ => return (at_, none)
    | .entry at_ entry =>
      if fresh then throw .alreadyExists
      else if entry.isDirectory then throw .isDirectory
      else return (at_, some entry)
  | .name at_ true =>
    match (← get).get? at_ with
    | some (.file _ _) => throw .notDirectory
    | _ => throw .isDirectory
  | _ => throw .isDirectory

/-- Writes a file anew, or makes it; a file that exists keeps its permission bits. -/
def write (p : Path) (content : Text) (fresh : Bool := false) : FileAction Location := do
  let (at_, before) ← writable p fresh
  let mode := match before with
    | some entry => entry.mode
    | none => maskedMode 0o666
  modify (·.set at_ (.file mode content))
  return at_

/-- Writes at the end of a file, or makes it. -/
def append (p : Path) (content : Text) : FileAction Location := do
  let (at_, before) ← writable p false
  match before with
  | some (.file mode old) => modify (·.set at_ (.file mode (old ++ content)))
  | _ => modify (·.set at_ (.file (maskedMode 0o666) content))
  return at_

/-- Sets the permission bits of what a path leads to. -/
def setMode (p : Path) (mode : Nat) : FileAction Unit := do
  let (at_, entry) ← ask (·.status p)
  modify (·.set at_ (entry.withMode mode))

/-- Makes a link at a free name. -/
def makeLink (p : Path) (target : Text) : FileAction Unit := do
  let fs ← get
  match ← ask (·.resolveLeaf p) with
  | .name at_ false =>
    if (fs.get? at_).isSome then throw .alreadyExists else set (fs.set at_ (.link target))
  | _ => throw .alreadyExists

end FileAction

end NativeBuild
