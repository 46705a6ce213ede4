import NativeBuild.Dictionary
import NativeBuild.Log.Level

/-!
# Thresholds by module

A filter has a default threshold and thresholds of its own for some modules. Reading a
specification replaces the latter; an entry for `*` sets the default.
-/
namespace NativeBuild.Log

structure Filter where
  default : Level := .info
  modules : Dictionary Level := []
  deriving Repr

namespace Filter

/-- The threshold of a module. -/
def threshold (f : Filter) (module : Text) : Level := (f.modules.get? module).getD f.default

def admits (f : Filter) (level : Level) (module : Text) : Bool := f.threshold module ≤ level

/-- The lowest threshold of all. -/
def minimum (f : Filter) : Level := f.modules.foldl (fun l e => l.lower e.2) f.default

/-- One entry of a specification: `module=level`, `*=level`, or a module alone, which lets all of
its records pass. -/
def addEntry (f : Filter) (entry : Text) : Filter :=
  if entry = [] then f
  else match Text.cutAt? (byte '=') entry with
    | none => { f with modules := f.modules.insert entry .trace }
    | some (module, level) =>
      let module := Text.trim module
      let level := Level.ofName (Text.trim level)
      if module = utf8 "*" then { f with default := level }
      else { f with modules := f.modules.insert module level }

/-- The filter after a specification: entries between commas, blanks around them dropped. -/
def read (f : Filter) (specification : Text) : Filter :=
  ((Text.splitAny (utf8 ",") specification).map Text.trim).foldl addEntry { f with modules := [] }

end Filter

end NativeBuild.Log
