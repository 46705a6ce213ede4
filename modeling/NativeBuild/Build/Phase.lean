import NativeBuild.Text

/-!
# Phases of a build

A build goes through its phases in order. Each phase has a name and the part of the work that is
done when it is entered; the parts grow from phase to phase.
-/
namespace NativeBuild

inductive Phase where
  | init
  | strip
  | prepare
  | generate
  | compileLink
  | stage
  | done
  deriving DecidableEq, Repr

namespace Phase

def all : List Phase := [.init, .strip, .prepare, .generate, .compileLink, .stage, .done]

def name : Phase → Text
  | .init => utf8 "init"
  | .strip => utf8 "strip"
  | .prepare => utf8 "prepare"
  | .generate => utf8 "generate"
  | .compileLink => utf8 "compile-link"
  | .stage => utf8 "stage"
  | .done => utf8 "done"

/-- The fraction of the work before the phase, as the bits of the nearest single-precision number.
Numbers that are not negative are ordered as their bits are. -/
def fraction : Phase → UInt32
  | .init => 0x00000000
  | .strip => 0x3DCCCCCD
  | .prepare => 0x3E4CCCCD
  | .generate => 0x3E99999A
  | .compileLink => 0x3F333333
  | .stage => 0x3F666666
  | .done => 0x3F800000

end Phase

/-- What is told of a phase that is entered. -/
structure Progress where
  phase : Phase
  fraction : UInt32
  deriving DecidableEq, Repr

def Phase.progress (phase : Phase) : Progress := { phase, fraction := phase.fraction }

end NativeBuild
