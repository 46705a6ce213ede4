import NativeBuild.Files.Access

/-!
# Operations on files and directory trees

Copies and removals of whole trees are made of single operations. They stop at the first one that
is refused, and what was done before stays. Links are followed when a tree is copied and never
when it is removed.
-/
namespace NativeBuild.FileAction

open FileSystem

/-- The ancestors of a missing path that are missing too, the outermost first, and the first
error met on the way up. The path loses its last component at each step. -/
def missingAncestors : (fuel : Nat) → Path → List Path → FileAction (List Path)
  | 0, _, _ => throw .nameTooLong
  | fuel + 1, p, found => do
    let name := Path.fileName p
    let dots := name = Path.dot ∨ name = Path.dotDot
    let found := if dots then found else p :: found
    if 1000 < found.length then throw .nameTooLong
    let up := Path.parent p
    if up = [] then return found
    match (← get).status up with
    | .ok (_, .directory _) => return found
    | .ok _ => throw .notDirectory
    | .error e => if e.isAbsence then missingAncestors fuel up found else throw e

/-- Makes a directory unless one is there. -/
def ensureOne (p : Path) : FileAction Unit := do
  let fs ← get
  match ((makeDirectory p).run fs).run with
  | (.ok (), after) => set after
  | (.error e, _) => if e = .alreadyExists ∧ fs.isDirectory p then return () else throw e

/-- Makes a directory and all its missing ancestors. -/
def makeDirectories (p : Path) : FileAction Unit := do
  if p = [] then throw .invalidArgument
  match (← get).status p with
  | .ok (_, .directory _) => return ()
  | .ok _ => throw .notDirectory
  | .error e =>
    if !e.isAbsence then throw e
    let trimmed := if Path.hasFileName p || p.all (· == Path.slash) then p else Path.parent p
    (← missingAncestors (p.length + 1) trimmed []).forM ensureOne

/-- Copies one file with its content and permission bits. A file that is there is replaced if
`overwrite` is set and kept otherwise; no file is copied onto itself. -/
def copyFile (source target : Path) (overwrite : Bool) : FileAction Unit := do
  let there ← match (← get).status target with
    | .ok found => pure (some found)
    | .error e => if e.isAbsence then pure none else throw e
  let (origin, entry) ← ask (·.status source)
  let .file mode content := entry | throw .invalidArgument
  match there with
  | some (at_, .file _ _) =>
    if at_ = origin then throw .alreadyExists
    else if !overwrite then return ()
    else
      let _ ← write target content
      setMode target mode
  | some _ => throw .invalidArgument
  | none =>
    if !overwrite && ((← get).entryAt false target).isOk then return ()
    else
      let at_ ← write target content
      modify (·.set at_ (.file mode content))

/-- Copies what stands at `source` to `target`: a file, or a directory with all below it. The
fuel bounds the depth; a path too long for the file system ends the recursion first. -/
def copyTree (overwrite : Bool) : (fuel : Nat) → (source target : Path) → FileAction Unit
  | 0, _, _ => throw .nameTooLong
  | fuel + 1, source, target => do
    let (origin, entry) ← ask (·.status source)
    let there ← match (← get).status target with
      | .ok found => pure (some found)
      | .error e => if e.isAbsence then pure none else throw e
    if there.any (·.1 = origin) then throw .alreadyExists
    match entry, there with
    | .directory _, some (_, .file _ _) => throw .isDirectory
    | .directory mode, _ =>
      if there.isNone then makeDirectory target mode
      (← ask (·.list source)).forM fun name =>
        copyTree overwrite fuel (Path.join source name) (Path.join target name)
    | _, some (_, .directory _) =>
      copyFile source (Path.join target (Path.fileName source)) overwrite
    | _, _ => copyFile source target overwrite

/-- Copies whole trees; no path is longer than the fuel given here. -/
def copy (source target : Path) (overwrite : Bool) : FileAction Unit :=
  copyTree overwrite maxPath source target

/-- Removes a file, a link or an empty directory, if one is there. -/
def removeIfThere (p : Path) : FileAction Unit := do
  let fs ← get
  match ((remove p).run fs).run with
  | (.ok (), after) => set after
  | (.error .notFound, _) => return ()
  | (.error e, _) => throw e

/-- Removes what a path names, with everything below it. A link is removed itself. A path that leads
through the tree it names leads nowhere once the tree is empty, and nothing more is removed then. -/
def removeAll (p : Path) : FileAction Unit := do
  match (← get).entryAt (p.getLast? == some Path.slash) p with
  | .ok (at_, .directory _) =>
    modify fun fs => { fs with
      entries := fs.entries.filter fun e => !(at_.isPrefixOf e.1 && e.1 != at_) }
    removeIfThere p
  | .ok _ => removeIfThere p
  | .error .notFound => return ()
  | .error .notDirectory => removeIfThere p
  | .error .tooManyLinks => removeIfThere p
  | .error e => throw e

/-- Gives the owner leave to write to what a path leads to. -/
def allowWriting (p : Path) : FileAction Unit := do
  let (_, entry) ← ask (·.status p)
  setMode p (entry.mode ||| 0o200)

end NativeBuild.FileAction
