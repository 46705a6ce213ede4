import NativeBuild.Text

/-!
# Patterns of file names

A pattern is a list of bytes, each with a mark that says whether it was quoted. Unquoted, a star
matches any text, a question mark any byte, and brackets a byte of a set.
-/
namespace NativeBuild.Shell

/-- Bytes of a word after expansion; the mark says that the byte was quoted. -/
abbrev Field := List (Bool × UInt8)

def Field.text (f : Field) : Text := f.map (·.2)

/-- The set of a bracket expression, up to the bracket that closes it. -/
def bracket? : (first : Bool) → (set : Text) → Field → Option (Text × Field)
  | _, _, [] => none
  | first, set, (quoted, b) :: rest =>
    if b == byte ']' && !quoted && !first then some (set, rest)
    else bracket? false (set ++ [b]) rest

/-- The byte is in the set, in which a dash stands for the bytes between its neighbours. -/
def inSet (b : UInt8) : Text → Bool
  | low :: dash :: high :: rest =>
    if dash == byte '-' then (low ≤ b && b ≤ high) || inSet b rest
    else low == b || inSet b (dash :: high :: rest)
  | [x, y] => x == b || y == b
  | [x] => x == b
  | [] => false

/-- A byte matches a set; an exclamation mark in front turns the set round. -/
def matchesSet (b : UInt8) (set : Text) : Bool :=
  match set with
  | mark :: rest => if mark == byte '!' then !inSet b rest else inSet b set
  | [] => false

/-- The whole text matches the pattern. The fuel bounds the lengths of both together. -/
def matchesFrom : (fuel : Nat) → Field → Text → Bool
  | 0, _, _ => false
  | _ + 1, [], t => t.isEmpty
  | fuel + 1, (quoted, p) :: rest, t =>
    if p == byte '*' && !quoted then
      matchesFrom fuel rest t || (match t with
        | _ :: t => matchesFrom fuel ((quoted, p) :: rest) t
        | [] => false)
    else match t with
      | [] => false
      | b :: t =>
        if quoted then p == b && matchesFrom fuel rest t
        else if p == byte '?' then matchesFrom fuel rest t
        else if p == byte '[' then
          match bracket? true [] rest with
          | some (set, rest) => matchesSet b set && matchesFrom fuel rest t
          | none => p == b && matchesFrom fuel rest t
        else p == b && matchesFrom fuel rest t

def Field.matches (f : Field) (t : Text) : Bool := matchesFrom (f.length + t.length + 1) f t

/-- Some byte of the field is a star, a question mark or a bracket, and not quoted. -/
def Field.isPattern (f : Field) : Bool :=
  f.any fun (quoted, b) => !quoted && (utf8 "*?[").contains b

end NativeBuild.Shell
