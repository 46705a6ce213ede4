import NativeBuild.Manifest.Document

/-!
# Reading manifests

A manifest holds headers and settings, one to a line, with comments and blank lines between them.
A list of strings may go over several lines. An error names the line where the reader stood; a
line feed counts as soon as it is consumed, also inside a list and behind a backslash.
-/
namespace NativeBuild.Manifest

inductive Cause where
  | expectedString
  | unterminatedString
  | expectedCommaOrBracket
  | expectedBracket
  | badInteger
  | badValue (word : Text)
  | afterValue
  | expectedName
  | expectedNameEnd
  | expectedEntryEnd
  | unexpected (b : UInt8)
  | expectedEquals
  deriving DecidableEq, Repr

def Cause.message : Cause → Text
  | .expectedString => utf8 "Expected string"
  | .unterminatedString => utf8 "Unterminated string"
  | .expectedCommaOrBracket => utf8 "Expected ',' or ']' in array"
  | .expectedBracket => utf8 "Expected closing bracket"
  | .badInteger => utf8 "Invalid integer"
  | .badValue word => utf8 "Invalid value '" ++ word ++ utf8 "'"
  | .afterValue => utf8 "Unexpected content after value"
  | .expectedName => utf8 "Expected section name"
  | .expectedNameEnd => utf8 "Expected ']' after section name"
  | .expectedEntryEnd => utf8 "Expected ']]' after array section name"
  | .unexpected b => utf8 "Unexpected character '" ++ [b] ++ utf8 "'"
  | .expectedEquals => utf8 "Expected '=' after key"

structure Error where
  line : Nat
  cause : Cause
  deriving DecidableEq, Repr

def Error.message (e : Error) : Text :=
  utf8 "Line " ++ Text.ofNat e.line ++ utf8 ": " ++ e.cause.message

/-- What is left of the text, and the line it starts in. -/
structure Cursor where
  rest : Text
  line : Nat := 1
  deriving DecidableEq, Repr

namespace Cursor

def fail {α : Type} (c : Cursor) (cause : Cause) : Except Error α := .error ⟨c.line, cause⟩

def startsWith (b : UInt8) (c : Cursor) : Bool := c.rest.head? == some b

/-- Moves over `n` bytes, none of them a line feed. -/
def drop (n : Nat) (c : Cursor) : Cursor := { c with rest := c.rest.drop n }

def skipSpaces (c : Cursor) : Cursor :=
  { c with rest := c.rest.dropWhile fun b => b == 0x20 || b == 0x09 }

def skipComment (c : Cursor) : Cursor :=
  if c.startsWith (byte '#') then { c with rest := c.rest.dropWhile (· != 0x0A) } else c

end Cursor

/-- Drops blanks and comments; `inside` says that a comment is open. -/
def blankFrom (inside : Bool) (line : Nat) : Text → Cursor
  | [] => ⟨[], line⟩
  | b :: rest =>
    if b = 0x0A then blankFrom false (line + 1) rest
    else if inside then blankFrom true line rest
    else if Text.isBlank b then blankFrom false line rest
    else if b = byte '#' then blankFrom true line rest
    else ⟨b :: rest, line⟩

def Cursor.skipBlank (c : Cursor) : Cursor := blankFrom false c.line c.rest

/-- The bytes of names and keys. -/
def isNameByte (b : UInt8) : Bool :=
  Text.isAlphanumeric b || b == byte '_' || b == byte '-' || b == byte '.'

/-- The run of name bytes at the cursor, and the cursor behind it. -/
def name (c : Cursor) : Text × Cursor :=
  let run := c.rest.takeWhile isNameByte
  (run, c.drop run.length)

/-- The byte that a backslash and another byte stand for. -/
def unescape (b : UInt8) : UInt8 :=
  if b = byte 'n' then 0x0A
  else if b = byte 't' then 0x09
  else if b = byte 'r' then 0x0D
  else b

/-- The rest of a string after its opening quote; `out` holds the bytes read so far, the last
one first. -/
def stringFrom (line : Nat) (out : Text) : Text → Except Error (Text × Cursor)
  | [] => .error ⟨line, .unterminatedString⟩
  | b :: rest =>
    if b = byte '"' then .ok (out.reverse, ⟨rest, line⟩)
    else if b = 0x0A then .error ⟨line, .unterminatedString⟩
    else if b ≠ byte '\\' then stringFrom line (b :: out) rest
    else match rest with
      | [] => .error ⟨line, .unterminatedString⟩
      | e :: rest => stringFrom (if e = 0x0A then line + 1 else line) (unescape e :: out) rest

def string (c : Cursor) : Except Error (Text × Cursor) :=
  if c.startsWith (byte '"') then stringFrom c.line [] (c.rest.drop 1)
  else c.fail .expectedString

/-- The rest of a list of strings; `found` holds those read so far, the last one first. Each call
but the last reads a string, so fuel beyond the length of the text does not run out. -/
def listFrom : (fuel : Nat) → List Text → Cursor → Except Error (List Text × Cursor)
  | 0, _, c => c.fail .expectedBracket
  | fuel + 1, found, c =>
    if c.rest.isEmpty then c.fail .expectedBracket
    else if c.startsWith (byte ']') then .ok (found.reverse, c.drop 1)
    else do
      let (item, c) ← string c
      let c := c.skipBlank
      if c.startsWith (byte ',') then listFrom fuel (item :: found) (c.drop 1).skipBlank
      else if c.startsWith (byte ']') then .ok ((item :: found).reverse, c.drop 1)
      else c.fail .expectedCommaOrBracket

/-- A list of strings at its opening bracket. -/
def list (c : Cursor) : Except Error (List Text × Cursor) :=
  let c := (c.drop 1).skipBlank
  listFrom (c.rest.length + 1) [] c

/-- The integer that a sign and digits stand for, if it fits 64 bits. -/
def integerOf? (negative : Bool) (digits : Text) : Option Int :=
  let i : Int := (if negative then -1 else 1) * Text.digitsValue digits
  if digits ≠ [] ∧ -0x8000000000000000 ≤ i ∧ i < 0x8000000000000000 then some i else none

def integer (c : Cursor) : Except Error (Int × Cursor) :=
  let negative := c.startsWith (byte '-')
  let c := if negative then c.drop 1 else c
  let digits := c.rest.takeWhile Text.isDigit
  let c := c.drop digits.length
  match integerOf? negative digits with
  | some i => .ok (i, c)
  | none => c.fail .badInteger

def value (c : Cursor) : Except Error (Value × Cursor) :=
  match c.rest.head? with
  | some b =>
    if b = byte '"' then do
      let (t, c) ← string c
      return (.string t, c)
    else if b = byte '[' then do
      let (ts, c) ← list c
      return (.strings ts, c)
    else if b = byte '-' || Text.isDigit b then do
      let (i, c) ← integer c
      return (.integer i, c)
    else word c
  | none => word c
where
  /-- One of the two words that are values. -/
  word (c : Cursor) : Except Error (Value × Cursor) :=
    match name c with
    | (run, c) =>
      if run = utf8 "true" then .ok (.bool true, c)
      else if run = utf8 "false" then .ok (.bool false, c)
      else c.fail (.badValue run)

/-- Only spaces, tabs and a comment may stand between a value and the end of its line. -/
def lineEnd (c : Cursor) : Except Error Cursor :=
  let c := c.skipSpaces.skipComment
  if c.rest.isEmpty || c.startsWith 0x0A || c.startsWith 0x0D then .ok c else c.fail .afterValue

/-- A header at its opening bracket: the section it opens, still without settings. -/
def header (c : Cursor) : Except Error (Section × Cursor) := do
  let c := c.drop 1
  let isEntry := c.startsWith (byte '[')
  let c := if isEntry then c.drop 1 else c
  let (title, c) := name c.skipSpaces
  let c := c.skipSpaces
  if title = [] then c.fail .expectedName
  else if !c.startsWith (byte ']') then c.fail .expectedNameEnd
  else
    let c := c.drop 1
    if isEntry && !c.startsWith (byte ']') then c.fail .expectedEntryEnd
    else
      let c ← lineEnd (if isEntry then c.drop 1 else c)
      return ({ name := title, isEntry }, c)

/-- A setting at its key. -/
def setting (c : Cursor) : Except Error ((Text × Value) × Cursor) := do
  match name c with
  | ([], c) => c.fail (.unexpected (c.rest.head?.getD 0))
  | (key, c) =>
    let c := c.skipSpaces
    if !c.startsWith (byte '=') then c.fail .expectedEquals
    else
      let (v, c) ← value (c.drop 1).skipSpaces
      let c ← lineEnd c
      return ((key, v), c)

/-- Reads headers and settings to the end. `done` holds the sections before `current`, the last
one first. Each call but the last consumes a byte, so fuel beyond the length does not run out. -/
def sectionsFrom : (fuel : Nat) → (done : List Section) → (current : Section) → Cursor →
    Except Error Document
  | 0, done, current, _ => .ok ⟨(current :: done).reverse⟩
  | fuel + 1, done, current, c => do
    let c := c.skipBlank
    if c.rest.isEmpty then return ⟨(current :: done).reverse⟩
    else if c.startsWith (byte '[') then
      let (next, c) ← header c
      sectionsFrom fuel (current :: done) next c
    else
      let ((key, v), c) ← setting c
      sectionsFrom fuel done { current with values := current.values.insert key v } c

/-- Reads a whole manifest. -/
def parse (t : Text) : Except Error Document := sectionsFrom (t.length + 1) [] {} ⟨t, 1⟩

end NativeBuild.Manifest
