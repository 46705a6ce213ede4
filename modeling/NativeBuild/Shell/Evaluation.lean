import NativeBuild.Shell.Arithmetic
import NativeBuild.Shell.Pattern
import NativeBuild.Shell.Utilities

/-!
# Running scripts

Words are expanded to fields: values outside quotes are split at blanks, and patterns are replaced
by the paths that match. A name stands for a command of the shell, for a utility, or for a file
that is looked for along the path; a file that is a script runs in a process of its own. The fuel
bounds all steps of a run together.
-/
namespace NativeBuild.Shell

/-- The fields of a word, as far as they are known. -/
structure Expansion where
  splits : Bool := true
  done : List Field := []
  current : Option Field := none

namespace Expansion

def append (x : Expansion) (f : Field) : Expansion :=
  { x with current := some (x.current.getD [] ++ f) }

/-- Ends the current field. -/
def close (x : Expansion) : Expansion :=
  match x.current with
  | some f => { x with done := x.done ++ [f], current := none }
  | none => x

/-- Puts a value in place; outside quotes it is split at blanks. -/
def value (x : Expansion) (quoted : Bool) (t : Text) : Expansion :=
  if quoted || !x.splits then x.append (t.map (quoted, ·))
  else t.foldl
    (fun x b => if b == 0x20 || b == 0x09 || b == 0x0A then x.close else x.append [(false, b)]) x

/-- Puts the positional parameters in place, each in a field of its own. -/
def values (x : Expansion) (quoted : Bool) : List Text → Expansion
  | [] => x
  | first :: rest =>
    rest.foldl (fun x t => x.close.value quoted t) (x.value quoted first)

/-- Puts a parameter in place. -/
def parameter (x : Expansion) (m : Machine) (quoted : Bool) (name : Text) : Expansion :=
  if x.splits && (name == utf8 "@" || (name == utf8 "*" && !quoted)) then
    x.values quoted m.parameters
  else x.value quoted (m.value name)

def fields (x : Expansion) : List Field := x.close.done

end Expansion

/-- The components of a pattern between slashes. -/
def components (f : Field) : List Field :=
  f.foldr
    (fun b fields => match fields with
      | [] => [[b]]
      | first :: rest => if b.2 == Path.slash then [] :: first :: rest else (b :: first) :: rest)
    [[]]

/-- The paths below some others whose next component matches. -/
def matchStep (fs : FileSystem) (paths : List Path) (component : Field) : List Path :=
  paths.flatMap fun p =>
    if component.isPattern then
      let names := (fs.list (if p = [] then Path.dot else p)).toOption.getD []
      let hidden := component.head?.any (·.2 == byte '.')
      ((Dictionary.sorted names).filter fun name =>
        (hidden || name.head? != some (byte '.')) && component.matches name).map (p ++ ·)
    else [p ++ component.text]

/-- The paths that a pattern stands for; without any it stands for itself. -/
def expandPattern (fs : FileSystem) (f : Field) : List Text :=
  if !f.isPattern then [f.text]
  else
    let paths := match components f with
      | [] => []
      | first :: rest =>
        rest.foldl (fun paths c => matchStep fs (paths.map (· ++ [Path.slash])) c)
          (matchStep fs [[]] first)
    match paths.filter fun p => (fs.entryAt false p).isOk with
    | [] => [f.text]
    | found => found

/-- The output of a command as it is put in place. -/
def trimmedOutput (t : Text) : Text :=
  ((t.filter (· != 0)).reverse.dropWhile (· == 0x0A)).reverse

def isProgram (m : Machine) (p : Path) : Bool :=
  match m.files.status p with
  | .ok (_, .file mode _) => mode &&& 0o111 != 0
  | _ => false

/-- The file of a command, or the message and status of one that cannot be run. -/
def findProgram (m : Machine) (name : Text) : Except (Text × Nat) Path :=
  if name.contains Path.slash then
    match m.files.status name with
    | .error e => .error (if e.isAbsence then utf8 "not found" else e.message, 127)
    | .ok _ => if isProgram m name then .ok name else .error (utf8 "Permission denied", 126)
  else
    let path := (m.bindings.get? (utf8 "PATH")).getD (utf8 "/usr/local/bin:/usr/bin:/bin")
    let candidates := (Text.pieces (· == byte ':') path).map fun dir =>
      if dir = [] then name else Path.join dir name
    match candidates.find? (isProgram m) with
    | some p => .ok p
    | none =>
      .error (if candidates.any m.files.isFile then utf8 "Permission denied" else utf8 "not found",
        127)

/-- The interpreter of a script and its argument, in the first line. -/
def interpreter? (content : Text) : Option (Path × List Text) := do
  let rest ← Text.dropHead? (utf8 "#!") content
  let line := Text.trim (rest.takeWhile (· != 0x0A))
  let program := line.takeWhile fun b => b != 0x20 && b != 0x09
  let argument := Text.trim (line.drop program.length)
  return (program, if argument = [] then [] else [argument])

/-- The name of one of the system's own programs. -/
def systemProgram? (at_ : Location) : Option Text :=
  if at_.dropLast ∈ programFolders then at_.getLast? else none

/-- The machine in which a script starts. -/
def Machine.forScript (m : Machine) (name : Text) (parameters : List Text) : Machine :=
  { m with
    name, parameters, status := 0, line := 1
    bindings := m.bindings.filter fun v => m.exported.contains v.1 }

/-- An assignment among the arguments. -/
def assignment? (t : Text) : Option (Text × Text) :=
  match Text.cutAt? (byte '=') t with
  | some (name, value) =>
    if name.head?.any isNameStart && name.all isNameByte then some (name, value) else none
  | none => none

/-- Changes the directory that relative paths start from. -/
def changeDirectory (arguments : List Text) : ShellM Nat := do
  let m ← get
  let p := (arguments.head?).getD (m.value (utf8 "HOME"))
  match m.files.status p with
  | .ok (at_, .directory _) =>
    set { m with files := { m.files with here := at_ } }
    return 0
  | _ =>
    complain (utf8 "cd: can't cd to " ++ p)
    return 2

def exportAll (arguments : List Text) : ShellM Nat := do
  arguments.forM fun a =>
    match assignment? a with
    | some (name, value) => do
      assign name value
      export_ name
    | none => export_ a
  return 0

/-- Commands that change the shell itself. -/
def ownCommand? (name : Text) (arguments : List Text) : Option (ShellM Nat) :=
  if name = utf8 ":" then some (return 0)
  else if name = utf8 "exit" then some do
    let m ← get
    let status := match arguments with
      | first :: _ => (numberOf first % 256).toNat
      | [] => m.status
    throw (.exit status)
  else if name = utf8 "cd" then some (changeDirectory arguments)
  else if name = utf8 "export" then some (exportAll arguments)
  else if name = utf8 "unset" then some do
    modify fun m => { m with bindings := m.bindings.filter fun v => !arguments.contains v.1 }
    return 0
  else if name = utf8 "shift" then some do
    let count := match arguments with
      | first :: _ => (numberOf first).toNat
      | [] => 1
    modify fun m => { m with parameters := m.parameters.drop count }
    return 0
  else if name = utf8 "set" then some do
    match arguments with
    | first :: rest =>
      if first = utf8 "--" then modify fun m => { m with parameters := rest }
    | [] => pure ()
    return 0
  else none

/-- A word holds a command whose output is put in place. -/
def hasCommand (w : Word) : Bool :=
  w.any fun
    | .command _ _ => true
    | _ => false

mutual

def expand : (fuel : Nat) → Expansion → Word → ShellM Expansion
  | 0, x, _ => return x
  | _ + 1, x, [] => return x
  | fuel + 1, x, .byte quoted b :: rest => expand fuel (x.append [(quoted, b)]) rest
  | fuel + 1, x, .emptyQuotes :: rest => expand fuel (x.append []) rest
  | fuel + 1, x, .parameter quoted name :: rest => do
    expand fuel (x.parameter (← get) quoted name) rest
  | fuel + 1, x, .arithmetic quoted expression :: rest => do
    match Arithmetic.evaluate (← get).value expression with
    | .ok i => expand fuel (x.value quoted (Text.ofInt i)) rest
    | .error e =>
      complain e.message
      throw (.exit 2)
  | fuel + 1, x, .command quoted script :: rest => do
    let (t, result) ← captured (runScript fuel ⟨script, script⟩)
    settleOwn result
    expand fuel (x.value quoted (trimmedOutput t)) rest

/-- The fields of some words. -/
def expandAll : (fuel : Nat) → List Word → ShellM (List Text)
  | 0, _ => return []
  | _ + 1, [] => return []
  | fuel + 1, w :: rest => do
    let x ← expand fuel {} w
    let fs := (← get).files
    return x.fields.flatMap (expandPattern fs) ++ (← expandAll fuel rest)

/-- The one field of a word that is not split. -/
def expandWhole : (fuel : Nat) → Word → ShellM Field
  | 0, _ => return []
  | fuel + 1, w => do
    let x ← expand fuel { splits := false } w
    return x.fields.flatten

/-- Makes some redirections in turn; the answer says whether all could be made. -/
def redirect : (fuel : Nat) → List Redirection → ShellM Bool
  | 0, _ => return false
  | _ + 1, [] => return true
  | fuel + 1, .write stream append file :: rest => do
    match ← openSink append (← expandWhole fuel file).text with
    | some sink =>
      modify fun m => m.lead stream sink
      redirect fuel rest
    | none => return false
  | fuel + 1, .read file :: rest => do
    let p := (← expandWhole fuel file).text
    match (← get).files.read p with
    | .ok input =>
      modify fun m => { m with input }
      redirect fuel rest
    | .error e =>
      if p = nullDevice then
        modify fun m => { m with input := [] }
        redirect fuel rest
      else
        complain (openMessage false p e)
        return false
  | fuel + 1, .duplicate stream other :: rest => do
    modify fun m => m.lead stream (m.sinkOf other)
    redirect fuel rest

/-- Runs a body with some redirections, which end with it. -/
def redirected : (fuel : Nat) → List Redirection → ShellM Unit → ShellM Unit
  | 0, _, _ => throw (.exit 2)
  | fuel + 1, rs, body => do
    let before ← get
    if ← redirect fuel rs then body else setStatus 2
    modify fun m =>
      { m with output := before.output, errors := before.errors, input := before.input }

/-- Makes the assignments in front of a command. -/
def assignAll : (fuel : Nat) → (exports : Bool) → List (Text × Word) → ShellM Unit
  | 0, _, _ => throw (.exit 2)
  | _ + 1, _, [] => return ()
  | fuel + 1, exports, (name, w) :: rest => do
    assign name (← expandWhole fuel w).text
    if exports then export_ name
    assignAll fuel exports rest

def runCommand : (fuel : Nat) → Command → ShellM Unit
  | 0, _ => throw (.exit 2)
  | fuel + 1, .simple line assignments words rs => do
    modify fun m => { m with line }
    match ← expandAll fuel words with
    | [] => redirected fuel rs do
      assignAll fuel false assignments
      if !(assignments.any fun a => hasCommand a.2) then setStatus 0
    | name :: arguments => redirected fuel rs do
      let before ← get
      assignAll fuel true assignments
      runNamed fuel name arguments
      if !assignments.isEmpty then
        modify fun m => { m with bindings := before.bindings, exported := before.exported }
  | fuel + 1, .pipeline negated commands => do
    let input := (← get).input
    runPipeline fuel commands
    modify fun m =>
      { m with input, status := if negated then (if m.status = 0 then 1 else 0) else m.status }
  | fuel + 1, .both first second => do
    runCommand fuel first
    if (← get).status = 0 then runCommand fuel second
  | fuel + 1, .either first second => do
    runCommand fuel first
    if (← get).status ≠ 0 then runCommand fuel second
  | fuel + 1, .sequence commands => runAll fuel commands
  | fuel + 1, .subshell body => do settleOwn (← isolated id (runCommand fuel body))
  | fuel + 1, .choice condition body otherwise => do
    runCommand fuel condition
    if (← get).status = 0 then runCommand fuel body
    else
      setStatus 0
      runCommand fuel otherwise
  | fuel + 1, .loop endsOnSuccess condition body => runLoop fuel endsOnSuccess condition body 0
  | fuel + 1, .each name words body => do
    let items ← match words with
      | some words => expandAll fuel words
      | none => pure (← get).parameters
    setStatus 0
    runEach fuel name items body
  | fuel + 1, .select subject arms => do
    runArms fuel (← expandWhole fuel subject).text arms
  | fuel + 1, .redirected body rs => redirected fuel rs (runCommand fuel body)

def runAll : (fuel : Nat) → List Command → ShellM Unit
  | 0, _ => throw (.exit 2)
  | _ + 1, [] => return ()
  | fuel + 1, command :: rest => do
    runCommand fuel command
    runAll fuel rest

/-- Each command reads what the one before it wrote. -/
def runPipeline : (fuel : Nat) → List Command → ShellM Unit
  | 0, _ => throw (.exit 2)
  | _ + 1, [] => return ()
  | fuel + 1, [last] => do settleOwn (← isolated id (runCommand fuel last))
  | fuel + 1, command :: rest => do
    let (input, result) ← captured (runCommand fuel command)
    settleOwn result
    modify fun m => { m with input }
    runPipeline fuel rest

def runLoop : (fuel : Nat) → Bool → Command → Command → (status : Nat) → ShellM Unit
  | 0, _, _, _, _ => throw (.exit 2)
  | fuel + 1, endsOnSuccess, condition, body, status => do
    runCommand fuel condition
    if ((← get).status == 0) == endsOnSuccess then setStatus status
    else
      runCommand fuel body
      runLoop fuel endsOnSuccess condition body (← get).status

def runEach : (fuel : Nat) → (name : Text) → List Text → Command → ShellM Unit
  | 0, _, _, _ => throw (.exit 2)
  | _ + 1, _, [], _ => return ()
  | fuel + 1, name, item :: rest, body => do
    assign name item
    runCommand fuel body
    runEach fuel name rest body

/-- The first arm with a pattern that matches. -/
def runArms : (fuel : Nat) → Text → List (List Word × Command) → ShellM Unit
  | 0, _, _ => throw (.exit 2)
  | _ + 1, _, [] => setStatus 0
  | fuel + 1, subject, (patterns, body) :: rest => do
    let fields ← patterns.mapM (expandWhole fuel)
    if fields.any (·.matches subject) then
      setStatus 0
      runCommand fuel body
    else runArms fuel subject rest

/-- Runs what a name stands for. -/
def runNamed : (fuel : Nat) → (name : Text) → List Text → ShellM Unit
  | 0, _, _ => throw (.exit 2)
  | fuel + 1, name, arguments => do
    match ownCommand? name arguments with
    | some act => setStatus (← act)
    | none =>
      if name = utf8 "exec" then
        match arguments with
        | program :: arguments =>
          runNamed fuel program arguments
          throw (.exit (← get).status)
        | [] => setStatus 0
      else if isBuiltin name then
        match utility? name with
        | some act => setStatus (← act arguments)
        | none => setStatus 127
      else match findProgram (← get) name with
        | .ok p => runFile fuel p arguments
        | .error (message, status) =>
          complain (name ++ utf8 ": " ++ message)
          setStatus status

/-- Runs a file that may be executed. -/
def runFile : (fuel : Nat) → Path → List Text → ShellM Unit
  | 0, _, _ => throw (.exit 2)
  | fuel + 1, p, arguments => do
    match (← get).files.status p with
    | .ok (at_, .file _ content) =>
      match systemProgram? at_ with
      | some name =>
        if name = utf8 "sh" then runShell fuel arguments
        else if name = utf8 "env" then
          settle (← isolated id do
            let (assignments, rest) := arguments.span fun a => (assignment? a).isSome
            let _ ← exportAll assignments
            match rest with
            | name :: arguments => runNamed fuel name arguments
            | [] => setStatus 0)
        else match utility? name with
          | some act => settle (← isolated id do setStatus (← act arguments))
          | none => setStatus 127
      | none =>
        match interpreter? content with
        | some (program, argument) =>
          if Path.fileName program = utf8 "sh" then
            settle (← isolated (·.forScript p arguments) (runScript fuel ⟨content, content⟩))
          else if isProgram (← get) program then
            runFile fuel program (argument ++ p :: arguments)
          else
            complain (p ++ utf8 ": not found")
            setStatus 127
        | none => settle (← isolated (·.forScript p arguments) (runScript fuel ⟨content, content⟩))
    | _ => setStatus 127

/-- Runs the shell as a program: a script in an argument, in a file, or in the input. -/
def runShell : (fuel : Nat) → List Text → ShellM Unit
  | 0, _ => throw (.exit 2)
  | fuel + 1, arguments => do
    let m ← get
    match arguments with
    | [] => settle (← isolated (·.forScript (utf8 "sh") []) (runScript fuel ⟨m.input, m.input⟩))
    | first :: rest =>
      if first = utf8 "-c" then
        let script := (rest.head?).getD []
        let name := (rest[1]?).getD (utf8 "sh")
        settle (← isolated (·.forScript name (rest.drop 2)) (runScript fuel ⟨script, script⟩))
      else match m.files.read first with
        | .ok content =>
          settle (← isolated (·.forScript first rest) (runScript fuel ⟨content, content⟩))
        | .error _ =>
          printError (utf8 "sh: 0: cannot open " ++ first ++ utf8 ": No such file\n")
          setStatus 2

/-- Runs a script, one command line after the other. -/
def runScript : (fuel : Nat) → Reader.Cursor → ShellM Unit
  | 0, _ => throw (.exit 2)
  | fuel + 1, c => do
    match Reader.next? c with
    | .error e =>
      complain e.message
      throw (.exit 2)
    | .ok none => return ()
    | .ok (some (command, c)) =>
      runCommand fuel command
      runScript fuel c

end

/-- More steps than any script of a build takes. -/
def maxSteps : Nat := 1000000

/-- What a command line leaves behind. -/
structure Outcome where
  files : FileSystem
  output : Text
  errors : Text
  /-- The exit status; a signal counts from 128. -/
  status : Nat

/-- Runs a command line with some variables, which all processes see. -/
def run (bindings : Dictionary Text) (files : FileSystem) (line : Text) : Outcome :=
  let line := line.takeWhile (· != 0)
  let m : Machine := { files, bindings, exported := bindings.map (·.1) }
  let (result, after) := (runScript maxSteps ⟨line, line⟩ |>.run m).run
  { files := { after.files with here := files.here }
    output := (after.buffers[0]?).getD []
    errors := (after.buffers[1]?).getD []
    status := match result with
      | .ok () => after.status
      | .error (.exit status) => status
      | .error (.killed signal) => 128 + signal }

end NativeBuild.Shell
