import NativeBuild.Shell.Formatted
import NativeBuild.Shell.Machine

/-!
# Utilities

The commands that scripts call by name. Each takes its arguments, acts on the machine and gives an
exit status. The system keeps one file for each of them in `/bin` and in `/usr/bin`.
-/
namespace NativeBuild.Shell

/-- A message of a utility, and its status. -/
def failWith (tool message : Text) : ShellM Nat := do
  printError (tool ++ utf8 ": " ++ message ++ utf8 "\n")
  return 1

def inQuotes (t : Text) : Text := utf8 "'" ++ t ++ utf8 "'"

/-- Acts on each argument in turn; the status is that of the last one that failed. -/
def forEach (arguments : List Text) (act : Text → ShellM Nat) : ShellM Nat :=
  arguments.foldlM (fun status argument => do
    let s ← act argument
    return if s = 0 then status else s) 0

/-- Options in front of the other arguments, and these. -/
def splitOptions (arguments : List Text) : List Text × List Text :=
  arguments.span fun a => a.head? == some (byte '-') && 1 < a.length

/-- Some option has the letter. -/
def hasOption (options : List Text) (letter : Char) : Bool :=
  options.any fun o => (o.drop 1).contains (byte letter)

/-- Acts on the files; a refusal is told with what was tried. -/
def attempt {α : Type} (tool tried : Text) (action : FileAction α) : ShellM Nat := do
  match ← act action with
  | .ok _ => return 0
  | .error e => failWith tool (tried ++ utf8 ": " ++ e.message)

def makeDirectories (arguments : List Text) : ShellM Nat :=
  let (options, names) := splitOptions arguments
  forEach names fun p =>
    attempt (utf8 "mkdir") (utf8 "cannot create directory " ++ inQuotes p)
      (if hasOption options 'p' then FileAction.makeDirectories p else FileAction.makeDirectory p)

def removeFiles (arguments : List Text) : ShellM Nat :=
  let (options, names) := splitOptions arguments
  forEach names fun p =>
    attempt (utf8 "rm") (utf8 "cannot remove " ++ inQuotes p) do
      let fs ← get
      let recursive := hasOption options 'r' || hasOption options 'R'
      match fs.entryAt false p with
      | .ok (_, .directory _) =>
        if recursive then FileAction.removeAll p else throw FileError.isDirectory
      | .ok _ => FileAction.remove p
      | .error e => if hasOption options 'f' && e.isAbsence then return () else throw e

/-- Where a file goes that is copied or moved to `target`. -/
def targetOf (fs : FileSystem) (source target : Path) : Path :=
  if fs.isDirectory target then Path.join target (Path.fileName source) else target

def copyFiles (arguments : List Text) : ShellM Nat := do
  let (options, names) := splitOptions arguments
  match names.reverse with
  | target :: sources =>
    forEach sources.reverse fun source => do
      let fs := (← get).files
      let target := targetOf fs source target
      attempt (utf8 "cp") (utf8 "cannot stat " ++ inQuotes source)
        (if hasOption options 'r' || hasOption options 'R' || hasOption options 'a' then
          FileAction.copy source target true
        else FileAction.copyFile source target true)
  | [] => failWith (utf8 "cp") (utf8 "missing file operand")

def moveFiles (arguments : List Text) : ShellM Nat := do
  let (_, names) := splitOptions arguments
  match names.reverse with
  | target :: sources =>
    forEach sources.reverse fun source => do
      let fs := (← get).files
      let target := targetOf fs source target
      attempt (utf8 "mv") (utf8 "cannot stat " ++ inQuotes source) do
        FileAction.copy source target true
        FileAction.removeAll source
  | [] => failWith (utf8 "mv") (utf8 "missing file operand")

def concatenate (arguments : List Text) : ShellM Nat := do
  if arguments = [] then
    print (← get).input
    return 0
  else
    forEach arguments fun p => do
      let m ← get
      if p = utf8 "-" then
        print m.input
        return 0
      else if p = nullDevice then return 0
      else match m.files.status p with
        | .ok (_, .file _ content) =>
          print content
          return 0
        | .ok _ => failWith (utf8 "cat") (p ++ utf8 ": Is a directory")
        | .error e => failWith (utf8 "cat") (p ++ utf8 ": " ++ e.message)

def touch (arguments : List Text) : ShellM Nat :=
  forEach (splitOptions arguments).2 fun p =>
    attempt (utf8 "touch") (utf8 "cannot touch " ++ inQuotes p) do
      if (← get).isDirectory p then return () else let _ ← FileAction.append p []

/-- Permission bits from octal digits, or added and taken by letters. -/
def newMode (mode : Text) (old : Nat) : Option Nat :=
  if mode ≠ [] ∧ mode.all isOctal then some (octalValue mode)
  else if mode = utf8 "+x" ∨ mode = utf8 "a+x" then some (old ||| 0o111)
  else if mode = utf8 "-x" ∨ mode = utf8 "a-x" then some (old &&& 0o7666)
  else if mode = utf8 "u+x" then some (old ||| 0o100)
  else if mode = utf8 "+w" ∨ mode = utf8 "u+w" then some (old ||| 0o200)
  else if mode = utf8 "-w" ∨ mode = utf8 "u-w" then some (old &&& 0o7577)
  else if mode = utf8 "a-w" then some (old &&& 0o7555)
  else none

def changeMode : List Text → ShellM Nat
  | [] => failWith (utf8 "chmod") (utf8 "missing operand")
  | mode :: names =>
    forEach names fun p =>
      attempt (utf8 "chmod") (utf8 "cannot access " ++ inQuotes p) do
        let (_, entry) ← FileAction.ask (·.status p)
        match newMode mode entry.mode with
        | some mode => FileAction.setMode p mode
        | none => throw .invalidArgument

def linkFiles (arguments : List Text) : ShellM Nat := do
  let (options, names) := splitOptions arguments
  match names with
  | [source, p] =>
    let p := targetOf (← get).files source p
    attempt (utf8 "ln") (utf8 "failed to create symbolic link " ++ inQuotes p) do
      if hasOption options 'f' then FileAction.removeIfThere p
      if hasOption options 's' then FileAction.makeLink p source
      else FileAction.copyFile source p false
  | _ => failWith (utf8 "ln") (utf8 "missing file operand")

/-- The last name of a path, without an ending that it may have. -/
def baseName (p ending : Text) : Text :=
  let trimmed := Path.stripSlashes p
  let name := if trimmed = [Path.slash] then trimmed else Path.fileName trimmed
  if ending ≠ [] ∧ ending.isSuffixOf name ∧ name ≠ ending then
    name.take (name.length - ending.length)
  else name

def directoryName (p : Text) : Text :=
  let up := Path.parent (Path.stripSlashes p)
  if up = [] then Path.dot else up

/-- What is written about the system; with options, those parts of it. -/
def systemName (arguments : List Text) : Text :=
  let (options, _) := splitOptions arguments
  let all := hasOption options 'a'
  let parts :=
    (if all || options = [] || hasOption options 's' then [utf8 "Linux"] else [])
      ++ (if all || hasOption options 'm' then [utf8 "x86_64"] else [])
  Text.join (utf8 " ") parts

/-- A condition on one operand. -/
def testOne (m : Machine) (operator operand : Text) : Bool :=
  let mode? := match m.files.status operand with
    | .ok (_, entry) => some entry.mode
    | .error _ => none
  if operator = utf8 "-n" then operand ≠ []
  else if operator = utf8 "-z" then operand = []
  else if operator = utf8 "-e" ∨ operator = utf8 "-r" ∨ operator = utf8 "-w" then
    m.files.doesExist operand
  else if operator = utf8 "-f" then m.files.isFile operand
  else if operator = utf8 "-d" then m.files.isDirectory operand
  else if operator = utf8 "-x" then mode?.any fun mode => mode &&& 0o111 != 0
  else if operator = utf8 "-s" then
    match m.files.status operand with
    | .ok (_, .file _ content) => content ≠ []
    | .ok _ => true
    | .error _ => false
  else if operator = utf8 "-L" ∨ operator = utf8 "-h" then
    match m.files.entryAt false operand with
    | .ok (_, .link _) => true
    | _ => false
  else false

/-- A condition on two operands. -/
def testTwo (operator left right : Text) : Bool :=
  let (x, y) := (numberOf left, numberOf right)
  if operator = utf8 "=" ∨ operator = utf8 "==" then left = right
  else if operator = utf8 "!=" then left ≠ right
  else if operator = utf8 "-eq" then x = y
  else if operator = utf8 "-ne" then x ≠ y
  else if operator = utf8 "-lt" then x < y
  else if operator = utf8 "-le" then x ≤ y
  else if operator = utf8 "-gt" then y < x
  else if operator = utf8 "-ge" then y ≤ x
  else false

/-- Whether a condition holds. -/
def holds (m : Machine) : List Text → Bool
  | [] => false
  | [t] => t ≠ []
  | [a, b] => if a = utf8 "!" then b = [] else testOne m a b
  | [a, b, c] => if a = utf8 "!" then !testOne m b c else testTwo b a c
  | a :: rest => if a = utf8 "!" then !holds m rest else false

def test (condition : List Text) : ShellM Nat := do
  return if holds (← get) condition then 0 else 1

/-- The number of a signal, given by number or by name. -/
def signalOf? (t : Text) : Option Nat :=
  if t ≠ [] ∧ t.all Text.isDigit then some (Text.digitsValue t)
  else
    let name := (Text.dropHead? (utf8 "SIG") t).getD t
    ([(utf8 "HUP", 1), (utf8 "INT", 2), (utf8 "QUIT", 3), (utf8 "ABRT", 6), (utf8 "KILL", 9),
      (utf8 "SEGV", 11), (utf8 "PIPE", 13), (utf8 "ALRM", 14), (utf8 "TERM", 15)].find?
      (·.1 == name)).map (·.2)

/-- Sends a signal; only the shell itself can be reached. -/
def kill (arguments : List Text) : ShellM Nat := do
  let (signal, processes) := match arguments with
    | first :: second :: rest =>
      if first = utf8 "-s" then (signalOf? second, rest)
      else if first.head? = some (byte '-') then (signalOf? (first.drop 1), second :: rest)
      else (some 15, arguments)
    | _ => (some 15, arguments)
  match signal with
  | some signal =>
    if processes.contains ownProcess then
      if signal = 0 then return 0 else throw (.killed signal)
    else
      complain (utf8 "kill: No such process")
      return 1
  | none =>
    complain (utf8 "kill: invalid signal number or name")
    return 2

/-- The utilities by name. -/
def utilities : List (Text × (List Text → ShellM Nat)) :=
  [(utf8 "true", fun _ => return 0),
    (utf8 "false", fun _ => return 1),
    (utf8 "echo", fun arguments => do
      print (echo arguments)
      return 0),
    (utf8 "printf", fun
      | format :: arguments => do
        print (formatted (arguments.length + 1) format arguments)
        return 0
      | [] => failWith (utf8 "printf") (utf8 "usage: printf format [arg ...]")),
    (utf8 "test", test),
    (utf8 "[", fun arguments => test arguments.dropLast),
    (utf8 "pwd", fun _ => do
      print (FileSystem.pathOf (← get).files.here ++ utf8 "\n")
      return 0),
    (utf8 "kill", kill),
    (utf8 "mkdir", makeDirectories),
    (utf8 "rm", removeFiles),
    (utf8 "cp", copyFiles),
    (utf8 "mv", moveFiles),
    (utf8 "cat", concatenate),
    (utf8 "touch", touch),
    (utf8 "chmod", changeMode),
    (utf8 "ln", linkFiles),
    (utf8 "rmdir", fun arguments => forEach arguments fun p =>
      attempt (utf8 "rmdir") (utf8 "failed to remove " ++ inQuotes p) (FileAction.remove p)),
    (utf8 "sleep", fun _ => return 0),
    (utf8 "basename", fun
      | p :: rest => do
        print (baseName p (rest.head?.getD []) ++ utf8 "\n")
        return 0
      | [] => failWith (utf8 "basename") (utf8 "missing operand")),
    (utf8 "dirname", fun
      | p :: _ => do
        print (directoryName p ++ utf8 "\n")
        return 0
      | [] => failWith (utf8 "dirname") (utf8 "missing operand")),
    (utf8 "uname", fun arguments => do
      print (systemName arguments ++ utf8 "\n")
      return 0)]

def utility? (name : Text) : Option (List Text → ShellM Nat) :=
  (utilities.find? (·.1 == name)).map (·.2)

/-- The utilities that the shell runs itself, without looking for a file. -/
def isBuiltin (name : Text) : Bool :=
  [utf8 "true", utf8 "false", utf8 "echo", utf8 "printf", utf8 "test", utf8 "[", utf8 "pwd",
    utf8 "kill"].contains name

/-- The directories of the system's own programs. -/
def programFolders : List Location := [[utf8 "bin"], [utf8 "usr", utf8 "bin"]]

/-- The files of a system on which nothing has been built yet. -/
def baseFiles : FileSystem :=
  let directories : List Location :=
    [[utf8 "bin"], [utf8 "usr"], [utf8 "usr", utf8 "bin"], [utf8 "tmp"], [utf8 "dev"],
      [utf8 "etc"], [utf8 "opt"], [utf8 "root"]]
  let programs := programFolders.flatMap fun folder =>
    (utf8 "sh" :: utf8 "env" :: utilities.map (·.1)).map fun name => folder ++ [name]
  { entries := directories.map (·, .directory 0o755) ++ programs.map (·, .file 0o755 []) }

end NativeBuild.Shell
