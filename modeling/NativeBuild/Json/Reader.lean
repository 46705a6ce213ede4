import NativeBuild.Json.Value

/-!
# Reading JSON

`Json.parse` reads one value with optional blanks around it. Strings are taken over bytes: every
byte from `0x20` up, other than the quote and the backslash, stands for itself. Containers nest
at most `maxDepth` deep. An error carries its cause and the line and column, counted in bytes,
where the reader stood.
-/
namespace NativeBuild.Json

inductive Cause where
  | endOfInput
  | unexpected (b : UInt8)
  | tooDeep
  | expectedKey
  | expectedColon
  | expectedCommaOrBrace
  | expectedCommaOrBracket
  | unterminatedString
  | controlCharacter
  | badUnicodeEscape
  | unpairedSurrogate
  | badEscape (b : UInt8)
  | expectedDigit
  | expectedFraction
  | expectedExponent
  | outOfRange
  | badLiteral
  | trailing
  deriving DecidableEq, Repr

def Cause.message : Cause → Text
  | .endOfInput => utf8 "unexpected end of input"
  | .unexpected b => utf8 "unexpected character '" ++ [b] ++ utf8 "'"
  | .tooDeep => utf8 "nesting too deep"
  | .expectedKey => utf8 "expected string key"
  | .expectedColon => utf8 "expected ':'"
  | .expectedCommaOrBrace => utf8 "expected ',' or '\x7d'"
  | .expectedCommaOrBracket => utf8 "expected ',' or ']'"
  | .unterminatedString => utf8 "unterminated string"
  | .controlCharacter => utf8 "control character in string"
  | .badUnicodeEscape => utf8 "bad \\u escape"
  | .unpairedSurrogate => utf8 "unpaired surrogate"
  | .badEscape b => utf8 "bad escape '\\" ++ [b] ++ utf8 "'"
  | .expectedDigit => utf8 "expected digit"
  | .expectedFraction => utf8 "expected digit after '.'"
  | .expectedExponent => utf8 "expected digit in exponent"
  | .outOfRange => utf8 "number out of range"
  | .badLiteral => utf8 "invalid literal"
  | .trailing => utf8 "trailing characters after value"

/-- Why and where a text was refused; lines and columns start at one. -/
structure Error where
  cause : Cause
  line : Nat
  column : Nat
  deriving DecidableEq, Repr

def Error.text (e : Error) : Text :=
  Text.ofNat e.line ++ utf8 ":" ++ Text.ofNat e.column ++ utf8 ": " ++ e.cause.message

/-- What is left of the text, and the position of its first byte. -/
structure Cursor where
  rest : Text
  line : Nat
  column : Nat
  deriving DecidableEq, Repr

/-- Containers nest at most this deep. -/
def maxDepth : Nat := 128

namespace Cursor

def start (t : Text) : Cursor := ⟨t, 1, 1⟩

/-- Moves over `n` bytes of one line. -/
def advance (n : Nat) (c : Cursor) : Cursor := ⟨c.rest.drop n, c.line, c.column + n⟩

def fail {α : Type} (c : Cursor) (cause : Cause) : Except Error α :=
  .error ⟨cause, c.line, c.column⟩

def startsWith (b : UInt8) (c : Cursor) : Bool := c.rest.head? == some b

end Cursor

/-- The cursor at the first byte that is no space, tab, line feed or carriage return. -/
def blanksFrom (line column : Nat) : Text → Cursor
  | [] => ⟨[], line, column⟩
  | b :: rest =>
    if b = 0x0A then blanksFrom (line + 1) 1 rest
    else if b = 0x20 ∨ b = 0x09 ∨ b = 0x0D then blanksFrom line (column + 1) rest
    else ⟨b :: rest, line, column⟩

def Cursor.skipBlanks (c : Cursor) : Cursor := blanksFrom c.line c.column c.rest

/-- The byte that a backslash and one more byte stand for. -/
def shortEscape? (b : UInt8) : Option UInt8 :=
  if b = byte '"' ∨ b = byte '\\' ∨ b = byte '/' then some b
  else if b = byte 'b' then some 0x08
  else if b = byte 'f' then some 0x0C
  else if b = byte 'n' then some 0x0A
  else if b = byte 'r' then some 0x0D
  else if b = byte 't' then some 0x09
  else none

/-- The 16-bit unit written by four hexadecimal digits. -/
def unit? (a b c d : UInt8) : Option Nat := do
  let a ← Text.hexValue? a
  let b ← Text.hexValue? b
  let c ← Text.hexValue? c
  let d ← Text.hexValue? d
  return ((a * 16 + b) * 16 + c) * 16 + d

def isHighSurrogate (u : Nat) : Bool := 0xD800 ≤ u && u ≤ 0xDBFF

def isLowSurrogate (u : Nat) : Bool := 0xDC00 ≤ u && u ≤ 0xDFFF

/-- The code point of a surrogate pair. -/
def pairValue (high low : Nat) : Nat := 0x10000 + (high - 0xD800) * 0x400 + (low - 0xDC00)

/-- The rest of a string after its opening quote; `out` holds the bytes read so far, the last
one first. -/
def stringFrom (line column : Nat) (out : Text) : Text → Except Error (Text × Cursor)
  | [] => .error ⟨.unterminatedString, line, column⟩
  | b :: rest =>
    if b = byte '"' then .ok (out.reverse, ⟨rest, line, column + 1⟩)
    else if b < 0x20 then .error ⟨.controlCharacter, line, column + 1⟩
    else if b ≠ byte '\\' then stringFrom line (column + 1) (b :: out) rest
    else match rest with
      | [] => .error ⟨.unterminatedString, line, column + 1⟩
      | e :: rest =>
        match shortEscape? e with
        | some x => stringFrom line (column + 2) (x :: out) rest
        | none =>
          if e ≠ byte 'u' then .error ⟨.badEscape e, line, column + 2⟩
          else match rest with
            | h₁ :: h₂ :: h₃ :: h₄ :: rest =>
              match unit? h₁ h₂ h₃ h₄ with
              | none => .error ⟨.badUnicodeEscape, line, column + 2⟩
              | some high =>
                if isHighSurrogate high then
                  match rest with
                  | 0x5C :: 0x75 :: rest =>
                    match rest with
                    | l₁ :: l₂ :: l₃ :: l₄ :: rest =>
                      match unit? l₁ l₂ l₃ l₄ with
                      | none => .error ⟨.unpairedSurrogate, line, column + 8⟩
                      | some low =>
                        if isLowSurrogate low then
                          stringFrom line (column + 12)
                            ((Text.ofCodePoint (pairValue high low)).reverse ++ out) rest
                        else .error ⟨.unpairedSurrogate, line, column + 12⟩
                    | _ => .error ⟨.unpairedSurrogate, line, column + 8⟩
                  | _ => .error ⟨.unpairedSurrogate, line, column + 6⟩
                else if isLowSurrogate high then .error ⟨.unpairedSurrogate, line, column + 6⟩
                else stringFrom line (column + 6) ((Text.ofCodePoint high).reverse ++ out) rest
            | _ => .error ⟨.badUnicodeEscape, line, column + 2⟩

/-- Reads a string at its opening quote. -/
def string (c : Cursor) : Except Error (Text × Cursor) :=
  let c := c.advance 1
  stringFrom c.line c.column [] c.rest

/-- A number as it is written: sign, digits before and after the point, and the exponent.
It is plain when it has neither point nor exponent. -/
structure Numeral where
  negative : Bool
  whole : Text
  fraction : Text
  exponent : Int
  plain : Bool
  deriving DecidableEq, Repr

/-- A plain numeral in the range of 64-bit integers is that integer; any other is rounded to
floating point, if it has a value there. -/
def Numeral.value? (n : Numeral) : Option Value :=
  let i : Int := (if n.negative then -1 else 1) * Text.digitsValue n.whole
  if n.plain ∧ -0x8000000000000000 ≤ i ∧ i < 0x8000000000000000 then some (.integer i)
  else (Binary64.ofDecimal? n.negative (Text.digitsValue (n.whole ++ n.fraction))
    (n.exponent - n.fraction.length)).map .real

/-- The digits at the cursor, and the cursor behind them. -/
def digits (c : Cursor) : Text × Cursor :=
  let run := c.rest.takeWhile Text.isDigit
  (run, c.advance run.length)

/-- The digits before the point: a single zero, or a run that starts with another digit. -/
def wholePart (c : Cursor) : Except Error (Text × Cursor) :=
  if c.startsWith (byte '0') then .ok ([byte '0'], c.advance 1)
  else match digits c with
    | ([], _) => c.fail .expectedDigit
    | found => .ok found

/-- The digits after a point; none when there is no point. -/
def fractionPart (c : Cursor) : Except Error (Option Text × Cursor) :=
  if c.startsWith (byte '.') then
    let c := c.advance 1
    match digits c with
    | ([], _) => c.fail .expectedFraction
    | (run, c) => .ok (some run, c)
  else .ok (none, c)

/-- The exponent after an `e` of either case; none when there is no such letter. -/
def exponentPart (c : Cursor) : Except Error (Option Int × Cursor) :=
  if c.startsWith (byte 'e') || c.startsWith (byte 'E') then
    let c := c.advance 1
    let negative := c.startsWith (byte '-')
    let c := if negative || c.startsWith (byte '+') then c.advance 1 else c
    match digits c with
    | ([], _) => c.fail .expectedExponent
    | (run, c) =>
      let size : Int := Text.digitsValue run
      .ok (some (if negative then -size else size), c)
  else .ok (none, c)

def numeral (c : Cursor) : Except Error (Numeral × Cursor) := do
  let negative := c.startsWith (byte '-')
  let c := if negative then c.advance 1 else c
  let (whole, c) ← wholePart c
  let (fraction, c) ← fractionPart c
  let (exponent, c) ← exponentPart c
  return (⟨negative, whole, fraction.getD [], exponent.getD 0,
    fraction.isNone && exponent.isNone⟩, c)

def number (c : Cursor) : Except Error (Value × Cursor) := do
  let (n, c) ← numeral c
  match n.value? with
  | some v => return (v, c)
  | none => c.fail .outOfRange

/-- One of the three words that are values. -/
def literal (word : Text) (v : Value) (c : Cursor) : Except Error (Value × Cursor) :=
  if word.isPrefixOf c.rest then .ok (v, c.advance word.length) else c.fail .badLiteral

mutual

/-- A value inside `depth` containers. Two calls pass at most for each byte consumed, so fuel of
twice the length and one more does not run out before the text does. -/
def value : (fuel depth : Nat) → Cursor → Except Error (Value × Cursor)
  | 0, _, c => c.fail .endOfInput
  | fuel + 1, depth, c => do
    let c := c.skipBlanks
    match c.rest with
    | [] => c.fail .endOfInput
    | b :: _ =>
      if b = byte '\x7b' then
        if maxDepth ≤ depth then c.fail .tooDeep
        else
          let c := (c.advance 1).skipBlanks
          if c.startsWith (byte '\x7d') then return (.object [], c.advance 1)
          else members fuel (depth + 1) [] c
      else if b = byte '[' then
        if maxDepth ≤ depth then c.fail .tooDeep
        else
          let c := (c.advance 1).skipBlanks
          if c.startsWith (byte ']') then return (.array [], c.advance 1)
          else items fuel (depth + 1) [] c
      else if b = byte '"' then
        let (t, c) ← string c
        return (.string t, c)
      else if b = byte 't' then literal (utf8 "true") (.bool true) c
      else if b = byte 'f' then literal (utf8 "false") (.bool false) c
      else if b = byte 'n' then literal (utf8 "null") .null c
      else if b = byte '-' || Text.isDigit b then number c
      else c.fail (.unexpected b)

/-- The members of an object from the next key to the closing brace. -/
def members : (fuel depth : Nat) → Dictionary Value → Cursor → Except Error (Value × Cursor)
  | 0, _, _, c => c.fail .endOfInput
  | fuel + 1, depth, found, c => do
    let c := c.skipBlanks
    if !c.startsWith (byte '"') then c.fail .expectedKey
    else
      let (key, c) ← string c
      let c := c.skipBlanks
      if !c.startsWith (byte ':') then c.fail .expectedColon
      else
        let (v, c) ← value fuel depth (c.advance 1)
        let found := found.insert key v
        let c := c.skipBlanks
        if c.startsWith (byte ',') then members fuel depth found (c.advance 1)
        else if c.startsWith (byte '\x7d') then return (.object found, c.advance 1)
        else c.fail .expectedCommaOrBrace

/-- The items of an array from the next value to the closing bracket; `found` holds those read
so far, the last one first. -/
def items : (fuel depth : Nat) → List Value → Cursor → Except Error (Value × Cursor)
  | 0, _, _, c => c.fail .endOfInput
  | fuel + 1, depth, found, c => do
    let (v, c) ← value fuel depth c
    let found := v :: found
    let c := c.skipBlanks
    if c.startsWith (byte ',') then items fuel depth found (c.advance 1)
    else if c.startsWith (byte ']') then return (.array found.reverse, c.advance 1)
    else c.fail .expectedCommaOrBracket

end

/-- Reads one value, with nothing but blanks around it. -/
def parse (t : Text) : Except Error Value := do
  let (v, c) ← value (2 * t.length + 1) 0 (Cursor.start t)
  let c := c.skipBlanks
  if c.rest.isEmpty then return v else c.fail .trailing

end NativeBuild.Json
