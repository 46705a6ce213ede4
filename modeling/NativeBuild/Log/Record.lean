import NativeBuild.Log.Level

/-!
# Log records and their two written forms

A record is written on one line: as text with the time of day, the level in five columns, the
module and the message, or as a JSON object, where the bytes below `0x20`, the quote and the
backslash are escaped, so that no line feed of a message ends the line.
-/
namespace NativeBuild.Log

/-- The time is in milliseconds since the epoch, and may lie before it. -/
structure Record where
  level : Level
  module : Text
  message : Text
  time : Int := 0
  deriving DecidableEq, Repr

inductive Format where
  | text
  | json
  deriving DecidableEq, Repr

/-- Three columns at least, filled with zeros behind the sign. -/
def threeColumns (i : Int) : Text :=
  if i < 0 then byte '-' :: Text.padded 2 i.natAbs else Text.padded 3 i.toNat

/-- Hours, minutes, seconds and milliseconds of the day. Seconds and milliseconds come from a
division that rounds towards zero, so a time before the epoch has negative milliseconds. -/
def clock (time : Int) : Text :=
  let second := ((time.tdiv 1000).fmod 86400).toNat
  Text.padded 2 (second / 3600) ++ utf8 ":" ++ Text.padded 2 (second / 60 % 60) ++ utf8 ":"
    ++ Text.padded 2 (second % 60) ++ utf8 "." ++ threeColumns (time.tmod 1000)

/-- A text in five columns. -/
def fiveColumns (t : Text) : Text := (t ++ List.replicate 5 (byte ' ')).take 5

def Record.text (r : Record) : Text :=
  clock r.time ++ utf8 " " ++ fiveColumns r.level.name ++ utf8 " [" ++ r.module ++ utf8 "] "
    ++ r.message

/-- The way a byte is written inside a JSON string. -/
def escapeByte (b : UInt8) : Text :=
  if b = byte '"' then utf8 "\\\""
  else if b = byte '\\' then utf8 "\\\\"
  else if b = 0x0A then utf8 "\\n"
  else if b = 0x0D then utf8 "\\r"
  else if b = 0x09 then utf8 "\\t"
  else if b < 0x20 then utf8 "\\u" ++ Text.hex 4 b.toNat
  else [b]

def jsonString (t : Text) : Text := utf8 "\"" ++ t.flatMap escapeByte ++ utf8 "\""

def Record.json (r : Record) : Text :=
  utf8 "\x7b\"ts\":" ++ Text.ofInt r.time
    ++ utf8 ",\"level\":" ++ jsonString r.level.name
    ++ utf8 ",\"module\":" ++ jsonString r.module
    ++ utf8 ",\"msg\":" ++ jsonString r.message ++ utf8 "\x7d"

def Record.render (format : Format) (r : Record) : Text :=
  match format with
  | .text => r.text
  | .json => r.json

end NativeBuild.Log
