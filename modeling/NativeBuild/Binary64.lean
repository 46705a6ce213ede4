import NativeBuild.Text

/-!
# Binary floating-point numbers from decimals

A decimal `digits * 10 ^ exponent` becomes the nearest 64-bit binary floating-point number, ties
going to the even neighbour. The computation is exact: the decimal is a quotient of natural
numbers, and the quotient is rounded once, at the unit in the last place of its binade.
A decimal that rounds to infinity, or that is not zero and rounds to zero, has no such number.
-/
namespace NativeBuild

/-- A binary floating-point number by its 64 bits: sign, exponent field, fraction. -/
structure Binary64 where
  bits : UInt64
  deriving DecidableEq, Repr, Inhabited

namespace Binary64

/-- `num / den` rounded to the nearest natural number, a half to the even one. -/
def roundRatio (num den : Nat) : Nat :=
  let quotient := num / den
  let remainder := num % den
  if 2 * remainder < den then quotient
  else if den < 2 * remainder then quotient + 1
  else quotient + quotient % 2

/-- The exponent of the binade of `num / den`, for positive `num` and `den`. -/
def binade (num den : Nat) : Int :=
  let e : Int := (Nat.log2 num : Int) - Nat.log2 den
  let atLeast := if 0 ≤ e then den * Nat.pow 2 e.toNat ≤ num else den ≤ num * Nat.pow 2 (-e).toNat
  if atLeast then e else e - 1

/-- The 63 bits below the sign of the number nearest to `num / den`. A carry out of the
fraction moves on into the exponent field, as it should. -/
def magnitude (num den : Nat) : Nat :=
  let unit := max (binade num den - 52) (-1074)
  let count := if 0 ≤ unit then roundRatio num (den * Nat.pow 2 unit.toNat)
    else roundRatio (num * Nat.pow 2 (-unit).toNat) den
  (unit + 1074).toNat * Nat.pow 2 52 + count

/-- The magnitude of infinity: all exponent bits are set. -/
def infinity : Nat := 0x7FF * Nat.pow 2 52

def withSign (negative : Bool) (magnitude : Nat) : Binary64 :=
  ⟨(magnitude + if negative then Nat.pow 2 63 else 0).toUInt64⟩

/-- The number nearest to `± digits * 10 ^ exponent`. Decimals far outside the range are refused
by their size alone, before any power is computed. -/
def ofDecimal? (negative : Bool) (digits : Nat) (exponent : Int) : Option Binary64 :=
  if digits = 0 then some (withSign negative 0)
  else
    let size : Int := Nat.log2 digits
    if 1025 ≤ size + 3 * exponent ∧ 0 ≤ exponent then none
    else if size + 3 * exponent ≤ -1101 then none
    else
      let m := if 0 ≤ exponent then magnitude (digits * Nat.pow 10 exponent.toNat) 1
        else magnitude digits (Nat.pow 10 (-exponent).toNat)
      if m = 0 ∨ infinity ≤ m then none else some (withSign negative m)

/-- The number nearest to an integer of at most 64 bits. -/
def ofInt (i : Int) : Binary64 :=
  if i = 0 then withSign false 0 else withSign (i < 0) (magnitude i.natAbs 1)

end Binary64

end NativeBuild
