import NativeBuild.Text

/-!
# Formatted output

A format is copied to the output; escapes stand for single bytes, and a directive for the next
argument, in some width. The format is used again as long as arguments are left.
-/
namespace NativeBuild.Shell

def isOctal (b : UInt8) : Bool := 0x30 ≤ b && b ≤ 0x37

def octalValue (digits : Text) : Nat := digits.foldl (fun n d => 8 * n + (d.toNat - 48)) 0

/-- The byte that a letter behind a backslash stands for. -/
def escapeByte? (b : UInt8) : Option UInt8 :=
  if b = byte 'a' then some 0x07
  else if b = byte 'b' then some 0x08
  else if b = byte 'f' then some 0x0C
  else if b = byte 'n' then some 0x0A
  else if b = byte 'r' then some 0x0D
  else if b = byte 't' then some 0x09
  else if b = byte 'v' then some 0x0B
  else if b = byte '\\' then some b
  else none

/-- The text with its escapes replaced. In an argument octal digits follow a zero, and `c` ends
all output. -/
def unescape (argument : Bool) : (fuel : Nat) → Text → Text × Bool
  | 0, t => (t, false)
  | _ + 1, [] => ([], false)
  | _ + 1, [b] => ([b], false)
  | fuel + 1, b :: c :: rest =>
    let andThen (bytes : Text) (rest : Text) :=
      let (more, stop) := unescape argument fuel rest
      (bytes ++ more, stop)
    if b != byte '\\' then andThen [b] (c :: rest)
    else match escapeByte? c with
      | some e => andThen [e] rest
      | none =>
        if argument && c == byte 'c' then ([], true)
        else if argument && c == byte '0' then
          let digits := (rest.take 3).takeWhile isOctal
          andThen [(octalValue digits).toUInt8] (rest.drop digits.length)
        else if !argument && isOctal c then
          let digits := ((c :: rest).take 3).takeWhile isOctal
          andThen [(octalValue digits).toUInt8] ((c :: rest).drop digits.length)
        else if !argument && c == byte '"' then andThen [c] rest
        else andThen [b, c] rest

/-- What `echo` writes: the arguments between blanks, and a line feed unless it is suppressed. -/
def echo (arguments : List Text) : Text :=
  let (silent, arguments) := match arguments with
    | first :: rest => if first = utf8 "-n" then (true, rest) else (false, arguments)
    | [] => (false, [])
  let t := Text.join (utf8 " ") arguments
  let (t, stop) := unescape true (t.length + 1) t
  if stop || silent then t else t ++ [0x0A]

structure Directive where
  flags : Text
  width : Nat
  precision : Option Nat
  kind : UInt8

/-- The directive behind a percent sign, and what follows it. -/
def directive? (t : Text) : Option (Directive × Text) :=
  let flags := t.takeWhile (utf8 "-0+ #").contains
  let t := t.drop flags.length
  let width := t.takeWhile Text.isDigit
  let t := t.drop width.length
  let (precision, t) := match t with
    | b :: rest =>
      if b == byte '.' then
        let digits := rest.takeWhile Text.isDigit
        (some (Text.digitsValue digits), rest.drop digits.length)
      else (none, t)
    | [] => (none, t)
  match t with
  | kind :: rest => some (⟨flags, Text.digitsValue width, precision, kind⟩, rest)
  | [] => none

/-- The digits of a number in a base up to sixteen. -/
def digitsIn (base n : Nat) : Text := (Nat.toDigits base n).map (·.toUInt8)

/-- The number in an argument: decimal, octal behind a zero, hexadecimal behind `0x`. -/
def numberOf (t : Text) : Int :=
  let (negative, digits) := match t with
    | b :: rest => if b == byte '-' then (true, rest) else if b == byte '+' then (false, rest)
      else (false, t)
    | [] => (false, [])
  let n : Nat :=
    match digits with
    | zero :: x :: rest =>
      if zero == byte '0' && (x == byte 'x' || x == byte 'X') then
        (rest.takeWhile fun b => (Text.hexValue? b).isSome).foldl
          (fun n b => 16 * n + (Text.hexValue? b).getD 0) 0
      else if zero == byte '0' then octalValue (digits.takeWhile isOctal)
      else Text.digitsValue (digits.takeWhile Text.isDigit)
    | _ => Text.digitsValue (digits.takeWhile Text.isDigit)
  if negative then -n else n

/-- The text filled up to the width: behind it with a dash, else in front of it. Zeros go behind
the sign of a number. -/
def Directive.fill (d : Directive) (numeric : Bool) (t : Text) : Text :=
  let missing := d.width - t.length
  if d.flags.contains (byte '-') then t ++ List.replicate missing (byte ' ')
  else if numeric && d.flags.contains (byte '0') && d.precision.isNone then
    match t with
    | b :: rest =>
      if b == byte '-' || b == byte '+' then b :: List.replicate missing (byte '0') ++ rest
      else List.replicate missing (byte '0') ++ t
    | [] => t
  else List.replicate missing (byte ' ') ++ t

/-- Digits with zeros in front, as the precision asks for, and a sign. -/
def Directive.signed (d : Directive) (i : Int) : Text :=
  let digits := Text.padded (d.precision.getD 1) i.natAbs
  if i < 0 then byte '-' :: digits
  else if d.flags.contains (byte '+') then byte '+' :: digits
  else digits

/-- An argument as a directive writes it. -/
def Directive.apply (d : Directive) (argument : Text) : Text :=
  let cut (t : Text) := match d.precision with
    | some n => t.take n
    | none => t
  let word := (numberOf argument % 0x10000000000000000).toNat
  if d.kind == byte 's' then d.fill false (cut argument)
  else if d.kind == byte 'b' then
    d.fill false (cut (unescape true (argument.length + 1) argument).1)
  else if d.kind == byte 'c' then d.fill false (argument.take 1)
  else if d.kind == byte 'd' || d.kind == byte 'i' then d.fill true (d.signed (numberOf argument))
  else if d.kind == byte 'u' then d.fill true (Text.ofNat word)
  else if d.kind == byte 'o' then d.fill true (digitsIn 8 word)
  else if d.kind == byte 'x' then d.fill true (digitsIn 16 word)
  else if d.kind == byte 'X' then
    d.fill true ((digitsIn 16 word).map fun b => if Text.isLower b then b - 0x20 else b)
  else []

/-- One pass through a format: the output, and the arguments that are left. -/
def formatOnce : (fuel : Nat) → (format : Text) → (arguments : List Text) → Text × List Text
  | 0, _, arguments => ([], arguments)
  | _ + 1, [], arguments => ([], arguments)
  | fuel + 1, b :: rest, arguments =>
    if b == byte '%' then
      match directive? rest with
      | none => ([b], arguments)
      | some (d, rest) =>
        if d.kind == byte '%' then
          let (more, left) := formatOnce fuel rest arguments
          (b :: more, left)
        else
          let (more, left) := formatOnce fuel rest (arguments.drop 1)
          (d.apply (arguments.head?.getD []) ++ more, left)
    else
      let text := (b :: rest).takeWhile (· != byte '%')
      let (bytes, _) := unescape false (text.length + 1) text
      let (more, left) := formatOnce fuel ((b :: rest).drop text.length) arguments
      (bytes ++ more, left)

/-- What `printf` writes; the format is used at least once. -/
def formatted : (fuel : Nat) → (format : Text) → (arguments : List Text) → Text
  | 0, _, _ => []
  | fuel + 1, format, arguments =>
    let (t, left) := formatOnce (format.length + 1) format arguments
    if left = [] ∨ left.length = arguments.length then t else t ++ formatted fuel format left

end NativeBuild.Shell
