/-!
# Byte texts

Every text the build touches (names, paths, arguments, file contents) is a list of bytes,
because none of its sources promises valid UTF-8. Letters, digits and blanks are those of
ASCII; all other bytes pass through unchanged. Splitting keeps the maximal non-empty runs
between delimiters, so joining with a delimiter and splitting again loses only empty parts.
-/
namespace NativeBuild

/-- A text is the list of its bytes. -/
abbrev Text := List UInt8

/-- The bytes of a fixed message. -/
def utf8 (s : String) : Text := s.toUTF8.data.toList

/-- The byte of an ASCII character. -/
abbrev byte (c : Char) : UInt8 := c.toUInt8

namespace Text

/-- Space, tab, line feed, vertical tab, form feed and carriage return are blank. -/
def isBlank (b : UInt8) : Bool := b == 0x20 || (0x09 ≤ b && b ≤ 0x0D)

def isDigit (b : UInt8) : Bool := 0x30 ≤ b && b ≤ 0x39

def isUpper (b : UInt8) : Bool := 0x41 ≤ b && b ≤ 0x5A

def isLower (b : UInt8) : Bool := 0x61 ≤ b && b ≤ 0x7A

def isAlphanumeric (b : UInt8) : Bool := isDigit b || isUpper b || isLower b

/-- Upper-case ASCII letters move to lower case; every other byte stays. -/
def lowerByte (b : UInt8) : UInt8 := if isUpper b then b + 0x20 else b

def toLower (t : Text) : Text := t.map lowerByte

@[simp] theorem toLower_nil : toLower [] = [] := rfl

@[simp] theorem toLower_append (s t : Text) : toLower (s ++ t) = toLower s ++ toLower t := by
  simp [toLower]

@[simp] theorem length_toLower (t : Text) : (toLower t).length = t.length := by simp [toLower]

/-- Equality up to the case of ASCII letters. -/
def equalsIgnoringCase (s t : Text) : Bool := toLower s == toLower t

theorem equalsIgnoringCase_iff (s t : Text) :
    equalsIgnoringCase s t = true ↔ toLower s = toLower t := by simp [equalsIgnoringCase]

def isAscii (t : Text) : Bool := t.all (· ≤ 0x7F)

def dropBlanks (t : Text) : Text := t.dropWhile isBlank

/-- Removes the blanks at both ends. -/
def trim (t : Text) : Text := (dropBlanks (dropBlanks t).reverse).reverse

def join (separator : Text) (parts : List Text) : Text := separator.intercalate parts

/-- Cuts a text at every byte that satisfies `cut`; `n` cuts leave `n + 1` pieces. -/
def pieces (cut : UInt8 → Bool) : Text → List Text
  | [] => [[]]
  | b :: rest =>
    if cut b then [] :: pieces cut rest
    else match pieces cut rest with
      | [] => [[b]]
      | piece :: more => (b :: piece) :: more

/-- The place of the first of `bytes` that stands at `start` or behind it. -/
def findAny? (bytes t : Text) (start : Nat) : Option Nat :=
  ((t.drop start).findIdx? bytes.contains).map (start + ·)

theorem findAny?_getD {bytes t : Text} {start : Nat} (h : start ≤ t.length) :
    (findAny? bytes t start).getD t.length = start + (t.drop start).findIdx bytes.contains := by
  rw [findAny?, List.findIdx_eq_getD_findIdx?, List.length_drop]
  cases (t.drop start).findIdx? bytes.contains with
  | none => simp [Nat.add_sub_cancel' h]
  | some i => rfl

/-- A text that is being split: the place behind the last delimiter that was met, and the parts
that are taken already. -/
structure Splitting where
  start : Nat := 0
  parts : List Text := []
  deriving DecidableEq, Repr

namespace Splitting

/-- One round takes what stands before the next delimiter, or before the end, unless that is
empty. There may be a round at the end of the text, but there is none behind it. -/
def round? (delimiters t : Text) (s : Splitting) : Option Splitting :=
  if s.start ≤ t.length then
    let stop := (findAny? delimiters t s.start).getD t.length
    some { start := stop + 1
           parts := if s.start < stop then s.parts ++ [t.extract s.start stop] else s.parts }
  else none

theorem round?_of_le {delimiters t : Text} {s : Splitting} (h : s.start ≤ t.length) :
    s.round? delimiters t =
      let stop := s.start + (t.drop s.start).findIdx delimiters.contains
      some { start := stop + 1
             parts := if s.start < stop then s.parts ++ [t.extract s.start stop] else s.parts } := by
  rw [round?, if_pos h, findAny?_getD h]

theorem round?_eq_none_iff {delimiters t : Text} {s : Splitting} :
    s.round? delimiters t = none ↔ t.length < s.start := by
  unfold round?
  split <;> simp <;> omega

theorem lt_of_round? {delimiters t : Text} {s next : Splitting}
    (h : s.round? delimiters t = some next) : s.start ≤ t.length ∧ s.start < next.start := by
  have hle : s.start ≤ t.length := by
    refine Nat.le_of_not_lt fun hlt => ?_
    rw [round?_eq_none_iff.mpr hlt] at h
    cases h
  rw [round?_of_le hle] at h
  obtain rfl := Option.some.inj h
  exact ⟨hle, by dsimp only; omega⟩

/-- The parts after the last round. -/
def finish (delimiters t : Text) (s : Splitting) : List Text :=
  match _h : s.round? delimiters t with
  | some next => next.finish delimiters t
  | none => s.parts
termination_by t.length + 1 - s.start
decreasing_by have := lt_of_round? _h; omega

theorem finish_of_round? {delimiters t : Text} {s next : Splitting}
    (h : s.round? delimiters t = some next) : s.finish delimiters t = next.finish delimiters t := by
  rw [finish]
  split <;> simp_all

theorem finish_of_no_round {delimiters t : Text} {s : Splitting}
    (h : s.round? delimiters t = none) : s.finish delimiters t = s.parts := by
  rw [finish]
  split <;> simp_all

end Splitting

/-- The maximal non-empty runs of bytes outside `delimiters`. -/
def splitAny (delimiters : Text) (t : Text) : List Text := Splitting.finish delimiters t {}

/-- The text before and after the first `b`, when there is one. -/
def cutAt? (b : UInt8) (t : Text) : Option (Text × Text) :=
  match t.span (· != b) with
  | (_, []) => none
  | (before, _ :: after) => some (before, after)

/-- The part after `head`, when the text starts with it. -/
def dropHead? (head t : Text) : Option Text :=
  if head.isPrefixOf t then some (t.drop head.length) else none

def ofNat (n : Nat) : Text := (Nat.toDigits 10 n).map (·.toUInt8)

def ofInt (i : Int) : Text :=
  if i < 0 then byte '-' :: ofNat i.natAbs else ofNat i.natAbs

/-- Decimal digits, filled with zeros on the left up to `width`. -/
def padded (width n : Nat) : Text :=
  let digits := ofNat n
  List.replicate (width - digits.length) (byte '0') ++ digits

/-- The value of a run of decimal digits. -/
def digitsValue (digits : Text) : Nat :=
  digits.foldl (fun n d => 10 * n + (d.toNat - 48)) 0

/-- The lower-case hexadecimal digit of a number below sixteen. -/
def hexDigit (n : Nat) : UInt8 := if n < 10 then (48 + n).toUInt8 else (87 + n).toUInt8

/-- The `width` low hexadecimal digits of `n`, the most significant first. -/
def hex : (width n : Nat) → Text
  | 0, _ => []
  | width + 1, n => hex width (n / 16) ++ [hexDigit (n % 16)]

@[simp] theorem length_hex (width n : Nat) : (hex width n).length = width := by
  induction width generalizing n with
  | zero => rfl
  | succ w ih => simp [hex, ih]

/-- The value of a hexadecimal digit of either case. -/
def hexValue? (b : UInt8) : Option Nat :=
  if isDigit b then some (b.toNat - 48)
  else if 0x61 ≤ b && b ≤ 0x66 then some (b.toNat - 87)
  else if 0x41 ≤ b && b ≤ 0x46 then some (b.toNat - 55)
  else none

/-- The UTF-8 encoding of a code point below `0x110000`. -/
def ofCodePoint (c : Nat) : Text :=
  if c < 0x80 then [c.toUInt8]
  else if c < 0x800 then [(0xC0 + c / 0x40).toUInt8, (0x80 + c % 0x40).toUInt8]
  else if c < 0x10000 then
    [(0xE0 + c / 0x1000).toUInt8, (0x80 + c / 0x40 % 0x40).toUInt8, (0x80 + c % 0x40).toUInt8]
  else
    [(0xF0 + c / 0x40000).toUInt8, (0x80 + c / 0x1000 % 0x40).toUInt8,
      (0x80 + c / 0x40 % 0x40).toUInt8, (0x80 + c % 0x40).toUInt8]

end Text

end NativeBuild
