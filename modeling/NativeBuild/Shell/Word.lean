import NativeBuild.Text

/-!
# Words of the shell

A word is read as a list of parts: bytes that stand for themselves, parameters, arithmetic, and
commands whose output is put in their place. Each part knows whether it stands between quotes.
Between double quotes only the dollar sign and the back quote keep a meaning, and a backslash
quotes only these two, the double quote, the backslash and the line feed.
-/
namespace NativeBuild.Shell

/-- Why a script cannot be read on. -/
inductive SyntaxError where
  | unterminatedQuotes
  | unterminatedCommand
  | badSubstitution
  | unexpected
  deriving DecidableEq, Repr

def SyntaxError.message : SyntaxError → Text
  | .unterminatedQuotes => utf8 "Syntax error: Unterminated quoted string"
  | .unterminatedCommand => utf8 "Syntax error: EOF in backquote substitution"
  | .badSubstitution => utf8 "Bad substitution"
  | .unexpected => utf8 "Syntax error: unexpected token"

inductive Part where
  | byte (quoted : Bool) (b : UInt8)
  /-- Quotes with nothing between them: the word is there, though it may be empty. -/
  | emptyQuotes
  | parameter (quoted : Bool) (name : Text)
  /-- A script whose output takes its place. -/
  | command (quoted : Bool) (script : Text)
  | arithmetic (quoted : Bool) (expression : Text)
  deriving DecidableEq, Repr

abbrev Word := List Part

/-- The bytes that end a word outside quotes. -/
def endsWord (b : UInt8) : Bool :=
  b == 0x20 || b == 0x09 || b == 0x0A || (utf8 ";&|<>()").contains b

def isNameStart (b : UInt8) : Bool := Text.isUpper b || Text.isLower b || b == byte '_'

def isNameByte (b : UInt8) : Bool := isNameStart b || Text.isDigit b

/-- The parameters whose name is one special byte. -/
def isSpecialName (b : UInt8) : Bool := (utf8 "@*#?-$!").contains b

/-- The bytes that a backslash quotes between double quotes. -/
def isEscapable (b : UInt8) : Bool :=
  b == byte '$' || b == 0x60 || b == byte '"' || b == byte '\\'

/-- The script up to the parenthesis that closes it, and what stands behind that. -/
def closeParenthesis : (depth : Nat) → (quote : Option UInt8) → (script : Text) → Text →
    Except SyntaxError (Text × Text)
  | _, _, _, [] => .error .unterminatedCommand
  | depth, some q, script, b :: rest =>
    closeParenthesis depth (if b == q then none else some q) (script ++ [b]) rest
  | depth, none, script, b :: rest =>
    if b == 0x27 || b == byte '"' then
      closeParenthesis depth (some b) (script ++ [b]) rest
    else if b == byte '(' then closeParenthesis (depth + 1) none (script ++ [b]) rest
    else if b == byte ')' then
      match depth with
      | 0 => .ok (script, rest)
      | depth + 1 => closeParenthesis depth none (script ++ [b]) rest
    else closeParenthesis depth none (script ++ [b]) rest

/-- The script up to the next back quote; a backslash keeps the byte behind it from ending it. -/
def closeBackQuote (script : Text) : Text → Except SyntaxError (Text × Text)
  | [] => .error .unterminatedCommand
  | [b] => if b == 0x60 then .ok (script, []) else .error .unterminatedCommand
  | b :: c :: rest =>
    if b == 0x60 then .ok (script, c :: rest)
    else if b == byte '\\' && isEscapable c then closeBackQuote (script ++ [c]) rest
    else closeBackQuote (script ++ [b]) (c :: rest)

/-- What a dollar sign stands for, and what is left of the text behind it. -/
def dollar (quoted : Bool) : Text → Except SyntaxError (Part × Text)
  | [] => .ok (.byte true (byte '$'), [])
  | b :: rest =>
    if b == byte '(' then do
      let (script, rest) ← closeParenthesis 0 none [] rest
      if script.head? = some (byte '(') ∧ script.getLast? = some (byte ')') then
        return (.arithmetic quoted (script.drop 1).dropLast, rest)
      else return (.command quoted script, rest)
    else if b == 0x7B then
      match rest.span (· != 0x7D) with
      | (name, _ :: rest) =>
        if name ≠ [] ∧ (name.all isNameByte ∨ name.length = 1 ∧ name.all isSpecialName) then
          .ok (.parameter quoted name, rest)
        else .error .badSubstitution
      | (_, []) => .error .badSubstitution
    else if isNameStart b then
      .ok (.parameter quoted ((b :: rest).takeWhile isNameByte),
        (b :: rest).dropWhile isNameByte)
    else if Text.isDigit b || isSpecialName b then .ok (.parameter quoted [b], rest)
    else .ok (.byte true (byte '$'), b :: rest)

/-- Reads a word up to its end. `inside` says that double quotes are open; `parts` was read so
far. The fuel bounds the steps by the length of the text. -/
def scan : (fuel : Nat) → (inside : Bool) → (parts : Word) → Text →
    Except SyntaxError (Word × Text)
  | 0, _, _, _ => .error .unexpected
  | _ + 1, inside, parts, [] => if inside then .error .unterminatedQuotes else .ok (parts, [])
  | fuel + 1, inside, parts, b :: rest =>
    if b == byte '$' then do
      let (part, rest) ← dollar inside rest
      scan fuel inside (parts ++ [part]) rest
    else if b == 0x60 then do
      let (script, rest) ← closeBackQuote [] rest
      scan fuel inside (parts ++ [.command inside script]) rest
    else if b == byte '"' then
      if inside then scan fuel false parts rest
      else if rest.head? = some (byte '"') then
        scan fuel false (parts ++ [.emptyQuotes]) (rest.drop 1)
      else scan fuel true parts rest
    else if b == byte '\\' then
      match rest with
      | [] => scan fuel inside (parts ++ [.byte true b]) []
      | c :: rest =>
        if c == 0x0A then scan fuel inside parts rest
        else if inside && !isEscapable c then
          scan fuel inside (parts ++ [.byte true b]) (c :: rest)
        else scan fuel inside (parts ++ [.byte true c]) rest
    else if inside then scan fuel inside (parts ++ [.byte true b]) rest
    else if b == 0x27 then
      match rest.span (· != 0x27) with
      | (_, []) => .error .unterminatedQuotes
      | (text, _ :: rest) =>
        scan fuel inside
          (parts ++ if text = [] then [.emptyQuotes] else text.map (.byte true)) rest
    else if endsWord b then .ok (parts, b :: rest)
    else scan fuel inside (parts ++ [.byte false b]) rest

/-- The word that a text starts with, and what is left of the text. -/
def word (t : Text) : Except SyntaxError (Word × Text) := scan (t.length + 1) false [] t

/-- The text of a word in which nothing is put in place of anything. -/
def literal? (w : Word) : Option Text :=
  w.foldr
    (fun part text => match part with
      | .byte _ b => text.map (b :: ·)
      | .emptyQuotes => text
      | _ => none)
    (some [])

/-- The words of a command line that has neither operators nor parts to be replaced. -/
def wordsFrom : (fuel : Nat) → Text → Option (List Text)
  | 0, _ => none
  | fuel + 1, t =>
    match t.dropWhile fun b => b == 0x20 || b == 0x09 with
    | [] => some []
    | b :: rest => do
      if endsWord b then none
      let (w, rest) ← (word (b :: rest)).toOption
      let text ← literal? w
      return text :: (← wordsFrom fuel rest)

/-- The words into which a command line splits, if nothing in it is replaced. -/
def words? (t : Text) : Option (List Text) := wordsFrom (t.length + 1) t

end NativeBuild.Shell
