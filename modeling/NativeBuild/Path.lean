import NativeBuild.Text

/-!
# Paths as texts

A path is the text that names it; nothing is looked up here. A path is absolute when it starts
with a slash. Joining an absolute path to a directory gives that path alone. The normal form
drops empty and `.` components and lets `..` cancel the ordinary component before it; a trailing
slash marks that the last component was one of these.
-/
namespace NativeBuild

abbrev Path := Text

namespace Path

def slash : UInt8 := byte '/'

def dot : Text := utf8 "."

def dotDot : Text := utf8 ".."

def isAbsolute (p : Path) : Bool := p.head? == some slash

/-- A path has a file name unless it is empty or ends in a slash. -/
def hasFileName (p : Path) : Bool := p ≠ [] && p.getLast? != some slash

/-- `child` seen from the directory `p`. -/
def join (p child : Path) : Path :=
  if isAbsolute child then child
  else if hasFileName p then p ++ [slash] ++ child
  else p ++ child

/-- The text after the last slash. -/
def fileName (p : Path) : Text := (p.reverse.takeWhile (· != slash)).reverse

/-- The path without its last component and the slashes before that. A path of slashes alone is
its own parent. -/
def parent (p : Path) : Path :=
  if p.all (· == slash) then p
  else
    let folder := ((p.reverse.dropWhile (· != slash)).dropWhile (· == slash)).reverse
    if folder = [] ∧ isAbsolute p then [slash] else folder

/-- The non-empty pieces between slashes. -/
def components (p : Path) : List Text := (Text.pieces (· == slash) p).filter (· ≠ [])

/-- The part of a path read so far, during normalisation: the last component first, and whether
a slash stands behind it. -/
structure Normalizing where
  absolute : Bool
  names : List Text := []
  slashed : Bool := false

/-- One component more. -/
def Normalizing.push (s : Normalizing) (name : Text) : Normalizing :=
  if name = [] ∨ name = dot then { s with slashed := true }
  else if name = dotDot then
    match s.names with
    | [] => if s.absolute then s else { s with names := [dotDot], slashed := false }
    | last :: before =>
      if last = dotDot then { s with names := dotDot :: s.names, slashed := false }
      else { s with names := before, slashed := true }
  else { s with names := name :: s.names, slashed := false }

def Normalizing.text (s : Normalizing) : Path :=
  match s.names with
  | [] => if s.absolute then [slash] else dot
  | last :: _ =>
    (if s.absolute then [slash] else []) ++ Text.join [slash] s.names.reverse
      ++ (if s.slashed && last != dotDot then [slash] else [])

/-- The normal form of a path. The empty path stays empty, and a path of slashes alone stays as it
is. -/
def normal (p : Path) : Path :=
  if p.all (· == slash) then p
  else ((Text.pieces (· == slash) p).foldl Normalizing.push { absolute := isAbsolute p }).text

/-- The path seen from the root, for an absolute `here`. The empty path names nothing. -/
def absolute? (here p : Path) : Option Path :=
  if p = [] then none else some (if isAbsolute p then p else join here p)

/-- The absolute normal form; a path that has no absolute form is only normalised. -/
def absoluteNormal (here p : Path) : Path := normal ((absolute? here p).getD p)

/-- The absolute normal form of `child` in the directory `p`. A directory of slashes alone keeps all
of them. -/
def absoluteNormalIn (here p child : Path) : Path :=
  if p ≠ [] ∧ p.all (· == slash) then p ++ normal child else absoluteNormal here (join p child)

/-- Slashes and backslashes at the end go, but for a first byte. -/
def stripSlashes : Path → Path
  | [] => []
  | b :: rest => b :: (rest.reverse.dropWhile fun c => c == slash || c == byte '\\').reverse

/-- Two paths name one place, up to the case of ASCII letters, once both are absolute and normal.
If either has no absolute form, both are compared as they stand. -/
def sameIgnoringCase (here a b : Path) : Bool :=
  let (a, b) := match absolute? here a, absolute? here b with
    | some a, some b => (normal a, normal b)
    | _, _ => (normal a, normal b)
  Text.equalsIgnoringCase (stripSlashes a) (stripSlashes b)

end Path

end NativeBuild
