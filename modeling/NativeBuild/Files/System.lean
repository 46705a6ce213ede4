import NativeBuild.Path
import NativeBuild.Files.Error

/-!
# File systems

A file system lists its entries by location: the names on the way down from the root. The root
itself is always a directory and is not listed. Operations keep one entry for each location, and
their effect on `get?` is stated beside them; the order of the list is the order in which a
directory is enumerated.
-/
namespace NativeBuild

/-- Names from the root downwards. -/
abbrev Location := List Text

inductive Entry where
  | directory (mode : Nat)
  | file (mode : Nat) (content : Text)
  | link (target : Text)
  deriving DecidableEq, Repr

def Entry.isDirectory : Entry → Bool
  | .directory _ => true
  | _ => false

def Entry.isFile : Entry → Bool
  | .file _ _ => true
  | _ => false

/-- The permission bits; a link has none of its own. -/
def Entry.mode : Entry → Nat
  | .directory mode => mode
  | .file mode _ => mode
  | .link _ => 0o777

def Entry.withMode (mode : Nat) : Entry → Entry
  | .directory _ => .directory mode
  | .file _ content => .file mode content
  | .link target => .link target

/-- The entries of a file system, and the directory that relative paths start from. -/
structure FileSystem where
  entries : List (Location × Entry) := []
  here : Location := []
  deriving Repr

namespace FileSystem

/-- The entry listed first for a location. -/
def find? (at_ : Location) : List (Location × Entry) → Option Entry
  | [] => none
  | (l, e) :: rest => if l = at_ then some e else find? at_ rest

/-- What stands at a location. -/
def get? (fs : FileSystem) (at_ : Location) : Option Entry :=
  if at_ = [] then some (.directory 0o755) else find? at_ fs.entries

/-- Replaces the entry of a location where it is listed, or lists a new one at the end. -/
def place (at_ : Location) (entry : Entry) : List (Location × Entry) → List (Location × Entry)
  | [] => [(at_, entry)]
  | (l, e) :: rest => if l = at_ then (l, entry) :: rest else (l, e) :: place at_ entry rest

def set (fs : FileSystem) (at_ : Location) (entry : Entry) : FileSystem :=
  { fs with entries := place at_ entry fs.entries }

/-- Takes a location and everything below it away. -/
def erase (fs : FileSystem) (at_ : Location) : FileSystem :=
  { fs with entries := fs.entries.filter fun e => !at_.isPrefixOf e.1 }

theorem find?_place (a b : Location) (entry : Entry) (es : List (Location × Entry)) :
    find? b (place a entry es) = if a = b then some entry else find? b es := by
  induction es with
  | nil => simp [place, find?]
  | cons e rest ih =>
    obtain ⟨l, x⟩ := e
    by_cases h : l = a
    · subst h; by_cases hb : l = b <;> simp [place, find?, hb]
    · by_cases hb : l = b
      · subst hb; simp [place, find?, h, Ne.symm h]
      · simp [place, find?, h, hb, ih]

theorem get?_set (fs : FileSystem) (a b : Location) (entry : Entry) (hb : b ≠ []) :
    (fs.set a entry).get? b = if a = b then some entry else fs.get? b := by
  simp [get?, set, hb, find?_place]

theorem get?_erase (fs : FileSystem) (a b : Location) (hb : b ≠ []) :
    (fs.erase a).get? b = if a.isPrefixOf b then none else fs.get? b := by
  simp only [get?, erase, hb, if_false]
  induction fs.entries with
  | nil => simp [find?]
  | cons e rest ih =>
    obtain ⟨l, x⟩ := e
    rw [List.filter_cons]
    by_cases hl : l = b
    · subst hl
      cases hp : a.isPrefixOf l <;> simp_all [find?]
    · cases hp : a.isPrefixOf l <;> simp [find?, hl, ih]

/-- The names in a directory, in the order of enumeration. -/
def names (fs : FileSystem) (dir : Location) : List Text :=
  fs.entries.filterMap fun e =>
    if e.1.dropLast = dir then e.1.getLast? else none

/-- Everything below a location, with the location of each entry from there. -/
def below (fs : FileSystem) (dir : Location) : List (Location × Entry) :=
  fs.entries.filterMap fun e =>
    if dir.isPrefixOf e.1 && e.1 != dir then some (e.1.drop dir.length, e.2) else none

/-- The text of a location. -/
def pathOf (l : Location) : Path := Path.slash :: Text.join [Path.slash] l

end FileSystem

end NativeBuild
