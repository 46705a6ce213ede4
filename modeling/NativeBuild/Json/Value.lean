import NativeBuild.Binary64
import NativeBuild.Dictionary

/-!
# JSON values

Integer numerals that fit 64 bits stay integers; every other number is a binary floating-point
number. Objects are dictionaries, so of several members with one key the last is kept.
-/
namespace NativeBuild.Json

inductive Value where
  | null
  | bool (b : Bool)
  | integer (i : Int)
  | real (x : Binary64)
  | string (t : Text)
  | array (items : List Value)
  | object (members : List (Text × Value))
  deriving Repr, Inhabited

namespace Value

/-- The member of an object under a key. -/
def member? (key : Text) : Value → Option Value
  | .object members => Dictionary.get? key members
  | _ => none

def string? : Value → Option Text
  | .string t => some t
  | _ => none

def integer? : Value → Option Int
  | .integer i => some i
  | _ => none

/-- A number as floating point; integers are widened. -/
def real? : Value → Option Binary64
  | .integer i => some (Binary64.ofInt i)
  | .real x => some x
  | _ => none

end Value

end NativeBuild.Json
