import NativeBuild.Files.System

/-!
# Resolving paths

A path is walked from the root or from the current directory, one name at a time. Links met on
the way are followed, at most `maxLinks` of them; a link at the end is followed on demand or when
a slash stands behind it. The walk ends at an entry, or at a free name in an existing directory.
-/
namespace NativeBuild.FileSystem

/-- At most this many links are followed in one walk. -/
def maxLinks : Nat := 40

/-- The longest name of a directory entry. -/
def maxName : Nat := 255

/-- The longest path, with room for an end mark. -/
def maxPath : Nat := 4096

/-- Where a walk arrives. -/
inductive Place where
  | entry (at_ : Location) (entry : Entry)
  | free (at_ : Location)
  deriving Repr

/-- The end of a walk, or the link that interrupts it. -/
inductive Walk where
  | arrived (place : Place)
  | refused (error : FileError)
  | jump (dir : Location) (target : Text) (rest : List Text)

/-- Walks down from a directory until the names are used up or a link has to be followed. -/
def walk (fs : FileSystem) (follow : Bool) (dir : Location) : List Text → Walk
  | [] => .arrived (.entry dir ((fs.get? dir).getD (.directory 0o755)))
  | name :: rest =>
    if name = Path.dot then walk fs follow dir rest
    else if name = Path.dotDot then walk fs follow dir.dropLast rest
    else if maxName < name.length then .refused .nameTooLong
    else match fs.get? (dir ++ [name]) with
      | none => if rest.isEmpty then .arrived (.free (dir ++ [name])) else .refused .notFound
      | some (.link target) =>
        if rest.isEmpty && !follow then .arrived (.entry (dir ++ [name]) (.link target))
        else .jump dir target rest
      | some (.file mode content) =>
        if rest.isEmpty then .arrived (.entry (dir ++ [name]) (.file mode content))
        else .refused .notDirectory
      | some (.directory _) => walk fs follow (dir ++ [name]) rest

/-- The names to walk; a slash at the end asks for a directory, as `.` does. -/
def steps (p : Path) : List Text :=
  let names := Path.components p
  if names ≠ [] && p.getLast? == some Path.slash then names ++ [Path.dot] else names

/-- Walks on behind each link, as long as the budget for links lasts. -/
def walkLinks (fs : FileSystem) (follow : Bool) :
    (budget : Nat) → Location → List Text → Except FileError Place
  | budget, dir, names =>
    match walk fs follow dir names with
    | .arrived place => .ok place
    | .refused error => .error error
    | .jump dir target rest =>
      match budget with
      | 0 => .error .tooManyLinks
      | budget + 1 =>
        if target = [] then .error .notFound
        else walkLinks fs follow budget (if Path.isAbsolute target then [] else dir)
          (steps target ++ rest)

/-- The part of a path that a system call sees: it ends at a zero byte. -/
def visible (p : Path) : Path := p.takeWhile (· != 0)

/-- Resolves a path, following a link at its end if `follow` says so. -/
def resolve (fs : FileSystem) (follow : Bool) (p : Path) : Except FileError Place :=
  let p := visible p
  if p = [] then .error .notFound
  else if maxPath ≤ p.length then .error .nameTooLong
  else walkLinks fs follow maxLinks (if Path.isAbsolute p then [] else fs.here) (steps p)

/-- The last component of a path, in a directory that exists. -/
inductive Leaf where
  | root
  | dot
  | dotDot
  | name (at_ : Location) (slashed : Bool)
  deriving Repr

/-- Resolves all of a path but its last component. -/
def resolveLeaf (fs : FileSystem) (p : Path) : Except FileError Leaf := do
  let p := visible p
  if p = [] then throw .notFound
  if maxPath ≤ p.length then throw .nameTooLong
  match (Path.components p).reverse with
  | [] => return .root
  | last :: before =>
    let start := if Path.isAbsolute p then [] else fs.here
    match ← walkLinks fs true maxLinks start (before.reverse ++ [Path.dot]) with
    | .free _ => throw .notFound
    | .entry dir _ =>
      if last = Path.dot then return .dot
      else if last = Path.dotDot then return .dotDot
      else if maxName < last.length then throw .nameTooLong
      else return .name (dir ++ [last]) (p.getLast? == some Path.slash)

end NativeBuild.FileSystem
