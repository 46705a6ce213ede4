import NativeBuild.Shell.Word

/-!
# Commands of the shell

A script is a list of commands: simple ones with assignments, words and redirections, and those
made of others. A reader takes one command line at a time from a script; the line number of a
simple command is kept for messages.
-/
namespace NativeBuild.Shell

inductive Redirection where
  | write (stream : Nat) (append : Bool) (file : Word)
  | read (file : Word)
  /-- The stream goes where another one goes. -/
  | duplicate (stream other : Nat)
  deriving Repr

inductive Command where
  | simple (line : Nat) (assignments : List (Text × Word)) (words : List Word)
      (redirections : List Redirection)
  | pipeline (negated : Bool) (commands : List Command)
  | both (first second : Command)
  | either (first second : Command)
  | sequence (commands : List Command)
  | subshell (body : Command)
  | choice (condition body otherwise : Command)
  | loop (endsOnSuccess : Bool) (condition body : Command)
  /-- Without words the loop goes through the positional parameters. -/
  | each (name : Text) (words : Option (List Word)) (body : Command)
  | select (subject : Word) (arms : List (List Word × Command))
  | redirected (body : Command) (redirections : List Redirection)

namespace Reader

/-- A script and what is left of it. -/
structure Cursor where
  whole : Text
  rest : Text

/-- The number of the line that is read next. -/
def Cursor.line (c : Cursor) : Nat :=
  1 + (c.whole.take (c.whole.length - c.rest.length)).count 0x0A

def skipComment (t : Text) : Text :=
  if t.head? = some (byte '#') then t.dropWhile (· != 0x0A) else t

/-- Drops blanks and joined lines. -/
def skipBlanks : Text → Text
  | [] => []
  | [b] => if b == 0x20 || b == 0x09 then [] else [b]
  | b :: c :: rest =>
    if b == 0x20 || b == 0x09 then skipBlanks (c :: rest)
    else if b == byte '\\' && c == 0x0A then skipBlanks rest
    else b :: c :: rest

/-- Moves to the next word or operator of the line. -/
def Cursor.skip (c : Cursor) : Cursor := { c with rest := skipComment (skipBlanks c.rest) }

/-- Moves to the next word or operator, on this line or a later one. -/
def skipLines : (fuel : Nat) → Cursor → Cursor
  | 0, c => c
  | fuel + 1, c =>
    let c := c.skip
    match c.rest with
    | b :: rest => if b == 0x0A then skipLines fuel { c with rest } else c
    | [] => c

def Cursor.skipNewlines (c : Cursor) : Cursor := skipLines (c.rest.length + 1) c

/-- The bytes up to the end of the word, as they stand. -/
def Cursor.raw (c : Cursor) : Text := c.rest.takeWhile fun b => !endsWord b

def Cursor.isAt (c : Cursor) (keyword : String) : Bool := c.raw == utf8 keyword

def Cursor.drop (c : Cursor) (n : Nat) : Cursor := { c with rest := c.rest.drop n }

def Cursor.startsWith (c : Cursor) (t : String) : Bool := (utf8 t).isPrefixOf c.rest

def Cursor.word (c : Cursor) : Except SyntaxError (Word × Cursor) := do
  let (w, rest) ← Shell.word c.rest
  return (w, { c with rest })

/-- Takes a keyword that has to come next. -/
def Cursor.expect (c : Cursor) (keyword : String) : Except SyntaxError Cursor :=
  let c := c.skipNewlines
  if c.isAt keyword then .ok (c.drop (utf8 keyword).length) else .error .unexpected

/-- The words that end a list of commands. -/
def isClosing (raw : Text) : Bool :=
  [utf8 "then", utf8 "else", utf8 "elif", utf8 "fi", utf8 "do", utf8 "done", utf8 "esac",
    utf8 "\x7d"].contains raw

/-- A redirection, if one comes next. -/
def redirection? (c : Cursor) : Except SyntaxError (Option (Redirection × Cursor)) := do
  let digits := c.rest.takeWhile Text.isDigit
  let after := c.drop digits.length
  let number? := if digits.length = 1 then some (Text.digitsValue digits) else none
  if 1 < digits.length then return none
  let target (n : Nat) (append : Bool) (c : Cursor) := do
    let (w, c) ← c.skip.word
    if w = [] then throw SyntaxError.unexpected
    return some (Redirection.write n append w, c)
  if after.startsWith ">>" then target (number?.getD 1) true (after.drop 2)
  else if after.startsWith ">&" then
    let (w, c) ← (after.drop 2).skip.word
    match literal? w with
    | some [d] =>
      if Text.isDigit d then
        return some (.duplicate (number?.getD 1) (Text.digitsValue [d]), c)
      else throw .unexpected
    | _ => throw .unexpected
  else if after.startsWith ">|" then target (number?.getD 1) false (after.drop 2)
  else if after.startsWith ">" then target (number?.getD 1) false (after.drop 1)
  else if after.startsWith "<" && !after.startsWith "<<" then
    let (w, c) ← (after.drop 1).skip.word
    if w = [] then throw .unexpected
    return some (.read w, c)
  else return none

/-- The name before an equals sign, if the word is an assignment. -/
def assignedName? (c : Cursor) : Option Text :=
  let name := c.rest.takeWhile isNameByte
  if name.head?.any isNameStart && (c.rest.drop name.length).head? == some (byte '=') then
    some name
  else none

/-- What a simple command is made of. -/
structure Simple where
  assignments : List (Text × Word) := []
  words : List Word := []
  redirections : List Redirection := []

/-- The parts of a simple command. -/
def simple : (fuel : Nat) → Simple → Cursor → Except SyntaxError (Simple × Cursor)
  | 0, _, _ => .error .unexpected
  | fuel + 1, s, c => do
    let c := c.skip
    match ← redirection? c with
    | some (r, c) => simple fuel { s with redirections := s.redirections ++ [r] } c
    | none =>
      if c.rest.head?.all endsWord then return (s, c)
      else
        match if s.words.isEmpty then assignedName? c else none with
        | some name =>
          let (w, c) ← (c.drop (name.length + 1)).word
          simple fuel { s with assignments := s.assignments ++ [(name, w)] } c
        | none =>
          let (w, c) ← c.word
          simple fuel { s with words := s.words ++ [w] } c

/-- Redirections behind a compound command. -/
def redirections : (fuel : Nat) → List Redirection → Cursor → Except SyntaxError (List Redirection × Cursor)
  | 0, _, _ => .error .unexpected
  | fuel + 1, rs, c => do
    let c := c.skip
    match ← redirection? c with
    | some (r, c) => redirections fuel (rs ++ [r]) c
    | none => return (rs, c)

/-- Words up to the end of the line. -/
def wordList : (fuel : Nat) → List Word → Cursor → Except SyntaxError (List Word × Cursor)
  | 0, _, _ => .error .unexpected
  | fuel + 1, ws, c => do
    let c := c.skip
    if c.rest.head?.all endsWord then return (ws, c)
    else
      let (w, c) ← c.word
      wordList fuel (ws ++ [w]) c

/-- The patterns of one arm, up to the parenthesis. -/
def patterns : (fuel : Nat) → List Word → Cursor → Except SyntaxError (List Word × Cursor)
  | 0, _, _ => .error .unexpected
  | fuel + 1, ws, c => do
    let (w, c) ← c.skip.word
    let c := c.skip
    if c.startsWith "|" then patterns fuel (ws ++ [w]) (c.drop 1)
    else if c.startsWith ")" then return (ws ++ [w], c.drop 1)
    else throw .unexpected

/-- The end of a loop's head: a line feed or a semicolon may stand before it. -/
def skipSeparator (c : Cursor) : Cursor :=
  let c := c.skip
  (if c.startsWith ";" then c.drop 1 else c).skipNewlines

mutual

/-- Commands up to a word that ends the list, a parenthesis, or the end. With `oneLine` a line
feed ends the list. -/
def list : (fuel : Nat) → (oneLine : Bool) → List Command → Cursor → Except SyntaxError (Command × Cursor)
  | 0, _, _, _ => .error .unexpected
  | fuel + 1, oneLine, done, c => do
    let c := if oneLine then c.skip else c.skipNewlines
    if c.rest.isEmpty || c.startsWith ")" || c.startsWith ";;" || isClosing c.raw
        || (oneLine && c.startsWith "\n") then
      return (.sequence done, c)
    else
      let (command, c) ← conditional fuel c
      let c := c.skip
      if c.startsWith ";;" then return (.sequence (done ++ [command]), c)
      else if c.startsWith ";" then list fuel oneLine (done ++ [command]) (c.drop 1)
      else if c.startsWith "\n" then
        if oneLine then return (.sequence (done ++ [command]), c)
        else list fuel oneLine (done ++ [command]) (c.drop 1)
      else if c.rest.isEmpty || c.startsWith ")" then return (.sequence (done ++ [command]), c)
      else throw .unexpected

/-- Pipelines between `&&` and `||`. -/
def conditional : (fuel : Nat) → Cursor → Except SyntaxError (Command × Cursor)
  | 0, _ => .error .unexpected
  | fuel + 1, c => do
    let (first, c) ← pipeline fuel c
    conditionalFrom fuel first c

def conditionalFrom : (fuel : Nat) → Command → Cursor → Except SyntaxError (Command × Cursor)
  | 0, _, _ => .error .unexpected
  | fuel + 1, first, c => do
    let c := c.skip
    if c.startsWith "&&" then
      let (second, c) ← pipeline fuel (c.drop 2).skipNewlines
      conditionalFrom fuel (.both first second) c
    else if c.startsWith "||" then
      let (second, c) ← pipeline fuel (c.drop 2).skipNewlines
      conditionalFrom fuel (.either first second) c
    else return (first, c)

/-- Commands between bars. -/
def pipeline : (fuel : Nat) → Cursor → Except SyntaxError (Command × Cursor)
  | 0, _ => .error .unexpected
  | fuel + 1, c => do
    let c := c.skip
    let negated := c.isAt "!"
    let (first, c) ← command fuel (if negated then c.drop 1 else c).skip
    let (commands, c) ← pipelineFrom fuel [first] c
    match negated, commands with
    | false, [only] => return (only, c)
    | _, _ => return (.pipeline negated commands, c)

def pipelineFrom : (fuel : Nat) → List Command → Cursor → Except SyntaxError (List Command × Cursor)
  | 0, _, _ => .error .unexpected
  | fuel + 1, done, c => do
    let c := c.skip
    if c.startsWith "|" && !c.startsWith "||" then
      let (next, c) ← command fuel (c.drop 1).skipNewlines
      pipelineFrom fuel (done ++ [next]) c
    else return (done, c)

/-- One command, with the redirections behind it. -/
def command : (fuel : Nat) → Cursor → Except SyntaxError (Command × Cursor)
  | 0, _ => .error .unexpected
  | fuel + 1, c => do
    match ← compound fuel c with
    | some (body, c) =>
      let (rs, c) ← redirections (c.rest.length + 1) [] c
      return (if rs.isEmpty then body else .redirected body rs, c)
    | none =>
      if isClosing c.raw then throw .unexpected
      let (s, after) ← simple (c.rest.length + 1) {} c
      if s.assignments.isEmpty && s.words.isEmpty && s.redirections.isEmpty then
        throw .unexpected
      return (.simple c.line s.assignments s.words s.redirections, after)

/-- A command made of others, if one comes next. -/
def compound : (fuel : Nat) → Cursor → Except SyntaxError (Option (Command × Cursor))
  | 0, _ => .error .unexpected
  | fuel + 1, c => do
    if c.startsWith "(" then
      let (body, c) ← list fuel false [] (c.drop 1)
      if c.startsWith ")" then return some (.subshell body, c.drop 1) else throw .unexpected
    else if c.isAt "\x7b" then
      let (body, c) ← list fuel false [] (c.drop 1)
      return some (body, ← c.expect "\x7d")
    else if c.isAt "if" then
      let (choice, c) ← choice fuel (c.drop 2)
      return some (choice, c)
    else if c.isAt "while" || c.isAt "until" then
      let (condition, after) ← list fuel false [] (c.drop 5)
      let (body, after) ← list fuel false [] (← after.expect "do")
      return some (.loop (c.isAt "until") condition body, ← after.expect "done")
    else if c.isAt "for" then
      let c := (c.drop 3).skip
      let name := c.raw
      let c := c.drop name.length
      let after := c.skipNewlines
      let (ws, c) ←
        if after.isAt "in" then
          let (ws, c) ← wordList (after.rest.length + 1) [] (after.drop 2)
          pure (some ws, c)
        else pure (none, c)
      let (body, c) ← list fuel false [] (← (skipSeparator c).expect "do")
      return some (.each name ws body, ← c.expect "done")
    else if c.isAt "case" then
      let (subject, c) ← (c.drop 4).skip.word
      let (arms, c) ← arms fuel [] (← c.expect "in")
      return some (.select subject arms, c)
    else return none

/-- What follows `if` or `elif`, up to and with `fi`. -/
def choice : (fuel : Nat) → Cursor → Except SyntaxError (Command × Cursor)
  | 0, _ => .error .unexpected
  | fuel + 1, c => do
    let (condition, c) ← list fuel false [] c
    let (body, c) ← list fuel false [] (← c.expect "then")
    let c := c.skipNewlines
    if c.isAt "elif" then
      let (otherwise, c) ← choice fuel (c.drop 4)
      return (.choice condition body otherwise, c)
    else if c.isAt "else" then
      let (otherwise, c) ← list fuel false [] (c.drop 4)
      return (.choice condition body otherwise, ← c.expect "fi")
    else return (.choice condition body (.sequence []), ← c.expect "fi")

/-- The arms of a selection, up to and with `esac`. -/
def arms : (fuel : Nat) → List (List Word × Command) → Cursor → Except SyntaxError (List (List Word × Command) × Cursor)
  | 0, _, _ => .error .unexpected
  | fuel + 1, done, c => do
    let c := c.skipNewlines
    if c.isAt "esac" then return (done, c.drop 4)
    else
      let (ps, c) ← patterns (c.rest.length + 1) [] (if c.startsWith "(" then c.drop 1 else c)
      let (body, c) ← list fuel false [] c
      let c := c.skipNewlines
      arms fuel (done ++ [(ps, body)]) (if c.startsWith ";;" then c.drop 2 else c)

end

/-- The commands of the next line, and what is left of the script; nothing at its end. -/
def next? (c : Cursor) : Except SyntaxError (Option (Command × Cursor)) := do
  let c := c.skipNewlines
  if c.rest.isEmpty then return none
  let (line, after) ← list (8 * c.rest.length + 64) true [] c
  if after.rest.isEmpty || after.startsWith "\n" then return some (line, after)
  else throw .unexpected

end Reader

end NativeBuild.Shell
