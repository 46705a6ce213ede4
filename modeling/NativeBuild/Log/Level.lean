import NativeBuild.Text

/-!
# Log levels

A level is a rank; records and thresholds are compared by rank. Seven ranks have names. A rank
outside them is shown as the highest.
-/
namespace NativeBuild.Log

structure Level where
  rank : Int
  deriving DecidableEq, Repr

namespace Level

def trace : Level := ⟨0⟩

def debug : Level := ⟨1⟩

def info : Level := ⟨2⟩

def warn : Level := ⟨3⟩

def error : Level := ⟨4⟩

def fatal : Level := ⟨5⟩

/-- Only of use as a threshold: it is above every record. -/
def off : Level := ⟨6⟩

instance : LE Level := ⟨fun a b => a.rank ≤ b.rank⟩

instance (a b : Level) : Decidable (a ≤ b) := inferInstanceAs (Decidable (a.rank ≤ b.rank))

/-- The lower of two levels. -/
def lower (a b : Level) : Level := if b.rank < a.rank then b else a

/-- The levels by increasing rank, each with its name in lower case. -/
def names : List (Text × Level) :=
  [(utf8 "trace", trace), (utf8 "debug", debug), (utf8 "info", info), (utf8 "warn", warn),
    (utf8 "error", error), (utf8 "fatal", fatal), (utf8 "off", off)]

def name (l : Level) : Text :=
  if l = trace then utf8 "TRACE"
  else if l = debug then utf8 "DEBUG"
  else if l = info then utf8 "INFO"
  else if l = warn then utf8 "WARN"
  else if l = error then utf8 "ERROR"
  else if l = fatal then utf8 "FATAL"
  else utf8 "OFF"

/-- The level with a name, in any case; `fallback` where there is none. -/
def ofName (t : Text) (fallback : Level := info) : Level :=
  match names.find? fun n => Text.equalsIgnoringCase t n.1 with
  | some (_, l) => l
  | none => fallback

end Level

end NativeBuild.Log
