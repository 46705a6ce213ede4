import NativeBuild.Log.Filter
import NativeBuild.Log.Record

/-!
# Logging options

The logging options of a command line, and the variable that stands in for them when neither a
level nor a filter is given there. Each argument is a logging option or is left to the command.
-/
namespace NativeBuild.Log

/-- What the logger is set up with. -/
structure Config where
  level : Level := .warn
  format : Format := .text
  filter : Text := []
  file : Text := []
  /-- Whether records go to the error stream. -/
  console : Bool := true
  deriving DecidableEq, Repr

namespace Options

/-- The number of `v` in `-v`, `-vv` and so on; `--verbose` counts as one. -/
def verbosity (argument : Text) : Nat :=
  if argument = utf8 "--verbose" then 1
  else match argument with
    | b :: rest =>
      if b = byte '-' ∧ rest ≠ [] ∧ rest.all (· == byte 'v') then rest.length else 0
    | [] => 0

def isQuiet (argument : Text) : Bool := argument == utf8 "-q" || argument == utf8 "--quiet"

def levelHead : Text := utf8 "--log-level="

def filterHead : Text := utf8 "--log-filter="

def fileHead : Text := utf8 "--log-file="

def formatHead : Text := utf8 "--log-format="

/-- The argument is one of the logging options. -/
def isOption (argument : Text) : Bool :=
  [levelHead, filterHead, fileHead, formatHead].any (·.isPrefixOf argument)
    || isQuiet argument || 0 < verbosity argument

/-- The options read so far. -/
structure Reading where
  level : Option Level := none
  filter : Option Text := none
  file : Text := []
  format : Format := .text
  verbosity : Nat := 0
  deriving DecidableEq, Repr

/-- One argument more. -/
def Reading.push (r : Reading) (argument : Text) : Reading :=
  match Text.dropHead? levelHead argument with
  | some v => { r with level := some (Level.ofName v) }
  | none =>
    match Text.dropHead? filterHead argument with
    | some v => { r with filter := some v }
    | none =>
      match Text.dropHead? fileHead argument with
      | some v => { r with file := v }
      | none =>
        match Text.dropHead? formatHead argument with
        | some v =>
          { r with format := if Text.equalsIgnoringCase v (utf8 "json") then .json else .text }
        | none =>
          if isQuiet argument then { r with level := some .error }
          else { r with verbosity := max r.verbosity (Options.verbosity argument) }

/-- The level asked for by repeating `v`. -/
def levelOfVerbosity : Nat → Option Level
  | 0 => none
  | 1 => some .info
  | 2 => some .debug
  | _ => some .trace

/-- A level on the command line wins, then a filter there, then the variable: with `=` or a comma
in it a filter, otherwise a level. -/
def Reading.config (r : Reading) (setting : Option Text) : Config :=
  let base : Config := { format := r.format, filter := r.filter.getD [], file := r.file }
  match r.level.or (levelOfVerbosity r.verbosity) with
  | some level => { base with level }
  | none =>
    if r.filter.isSome then base
    else match setting with
      | none | some [] => base
      | some v =>
        if v.any fun b => b == byte '=' || b == byte ',' then { base with filter := v }
        else { base with level := Level.ofName v .warn }

/-- The logger's configuration from the arguments and the variable. -/
def parse (arguments : List Text) (setting : Option Text) : Config :=
  (arguments.foldl Reading.push {}).config setting

end Options

end NativeBuild.Log
