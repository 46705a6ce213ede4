import NativeBuild.Shell.Formatted

/-!
# Arithmetic in words

An expression is made of numbers, variables, parentheses and operators on 64-bit words with a sign.
An operator with a higher rank binds tighter, and operators of one rank are taken from the left.
-/
namespace NativeBuild.Shell.Arithmetic

inductive Error where
  | syntaxError (expression : Text)
  | divisionByZero
  deriving DecidableEq, Repr

def Error.message : Error → Text
  | .syntaxError expression =>
    utf8 "arithmetic expression: expecting primary: \"" ++ expression ++ utf8 "\""
  | .divisionByZero => utf8 "arithmetic expression: division by zero"

/-- The word that an integer wraps to. -/
def wrap (i : Int) : Int := Int.bmod i (Nat.pow 2 64)

def truth (b : Bool) : Int := if b then 1 else 0

/-- The operation on the bits of two words. -/
def onBits (f : UInt64 → UInt64 → UInt64) (x y : Int) : Int :=
  wrap (f (UInt64.ofInt x) (UInt64.ofInt y)).toNat

structure Operator where
  symbol : Text
  rank : Nat
  apply : Int → Int → Option Int

/-- The operators; a symbol stands before those that it starts with. -/
def operators : List Operator :=
  [⟨utf8 "||", 1, fun x y => some (truth (x != 0 || y != 0))⟩,
    ⟨utf8 "&&", 2, fun x y => some (truth (x != 0 && y != 0))⟩,
    ⟨utf8 "==", 6, fun x y => some (truth (x == y))⟩,
    ⟨utf8 "!=", 6, fun x y => some (truth (x != y))⟩,
    ⟨utf8 "<=", 7, fun x y => some (truth (x ≤ y))⟩,
    ⟨utf8 ">=", 7, fun x y => some (truth (y ≤ x))⟩,
    ⟨utf8 "<<", 8, fun x y => some (wrap (x * Nat.pow 2 (y % 64).toNat))⟩,
    ⟨utf8 ">>", 8, fun x y => some (x.fdiv (Nat.pow 2 (y % 64).toNat))⟩,
    ⟨utf8 "|", 3, fun x y => some (onBits (· ||| ·) x y)⟩,
    ⟨utf8 "^", 4, fun x y => some (onBits (· ^^^ ·) x y)⟩,
    ⟨utf8 "&", 5, fun x y => some (onBits (· &&& ·) x y)⟩,
    ⟨utf8 "<", 7, fun x y => some (truth (x < y))⟩,
    ⟨utf8 ">", 7, fun x y => some (truth (y < x))⟩,
    ⟨utf8 "+", 9, fun x y => some (wrap (x + y))⟩,
    ⟨utf8 "-", 9, fun x y => some (wrap (x - y))⟩,
    ⟨utf8 "*", 10, fun x y => some (wrap (x * y))⟩,
    ⟨utf8 "/", 10, fun x y => if y = 0 then none else some (wrap (x.tdiv y))⟩,
    ⟨utf8 "%", 10, fun x y => if y = 0 then none else some (x.tmod y)⟩]

def isVariableByte (b : UInt8) : Bool := Text.isAlphanumeric b || b == byte '_'

mutual

/-- A number, a variable, an expression in parentheses, or one of these behind a sign. -/
def operand (value : Text → Text) : (fuel : Nat) → Text → Except Error (Int × Text)
  | 0, t => .error (.syntaxError t)
  | fuel + 1, t =>
    match Text.dropBlanks t with
    | [] => .error (.syntaxError [])
    | b :: rest =>
      if b == byte '(' then do
        let (x, rest) ← expression value fuel 1 rest
        match Text.dropBlanks rest with
        | close :: rest => if close == byte ')' then return (x, rest) else throw (.syntaxError rest)
        | [] => throw (.syntaxError [])
      else if b == byte '-' then do
        let (x, rest) ← operand value fuel rest
        return (wrap (-x), rest)
      else if b == byte '+' then operand value fuel rest
      else if b == byte '!' then do
        let (x, rest) ← operand value fuel rest
        return (truth (x == 0), rest)
      else if b == byte '~' then do
        let (x, rest) ← operand value fuel rest
        return (-x - 1, rest)
      else if Text.isDigit b then
        let digits := (b :: rest).takeWhile isVariableByte
        .ok (wrap (numberOf digits), (b :: rest).drop digits.length)
      else
        let start := if b == byte '$' then rest else b :: rest
        let name := start.takeWhile isVariableByte
        if name = [] then .error (.syntaxError (b :: rest))
        else .ok (wrap (numberOf (value name)), start.drop name.length)

/-- An operand, and the operators behind it that have some rank at least. -/
def expression (value : Text → Text) : (fuel : Nat) → (rank : Nat) → Text →
    Except Error (Int × Text)
  | 0, _, t => .error (.syntaxError t)
  | fuel + 1, rank, t => do
    let (x, rest) ← operand value fuel t
    operatorsFrom value fuel rank x rest

def operatorsFrom (value : Text → Text) : (fuel : Nat) → (rank : Nat) → Int → Text →
    Except Error (Int × Text)
  | 0, _, _, t => .error (.syntaxError t)
  | fuel + 1, rank, x, t => do
    let t := Text.dropBlanks t
    match operators.find? fun o => o.symbol.isPrefixOf t with
    | none => return (x, t)
    | some o =>
      if o.rank < rank then return (x, t)
      else
        let (y, rest) ← expression value fuel (o.rank + 1) (t.drop o.symbol.length)
        match o.apply x y with
        | some z => operatorsFrom value fuel rank z rest
        | none => throw .divisionByZero

end

/-- The value of an expression; an empty one is zero. -/
def evaluate (value : Text → Text) (t : Text) : Except Error Int := do
  if Text.trim t = [] then return 0
  let (x, rest) ← expression value (4 * t.length + 8) 1 t
  if Text.dropBlanks rest = [] then return x else throw (.syntaxError rest)

end NativeBuild.Shell.Arithmetic
