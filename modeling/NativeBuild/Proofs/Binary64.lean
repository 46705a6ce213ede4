import Mathlib.Data.Nat.Log
import Mathlib.Tactic.Ring
import NativeBuild.Binary64

/-!
# Decimals in range

A decimal can be too large for a floating-point number, or too small. Its digits alone never make it
so. With the exponent that moves the point behind the first of them, the decimal lies between one
and ten, and it is rounded to a number.
-/
namespace NativeBuild.Binary64

variable {num den : ℕ}

theorem roundRatio_le (num den : ℕ) : roundRatio num den ≤ num / den + 1 := by
  unfold roundRatio
  dsimp only
  split_ifs <;> omega

theorem log2_le_of_le (hden : 0 < den) (h : den ≤ num) : den.log2 ≤ num.log2 := by
  rw [Nat.le_log2 (by omega)]
  exact (Nat.log2_self_le hden.ne').trans h

theorem log2_lt_of_lt (hpos : 0 < num) (hlt : num < 10 * den) : num.log2 < den.log2 + 5 := by
  rw [Nat.log2_lt hpos.ne']
  have hpow : 2 ^ (den.log2 + 5) = 16 * 2 ^ (den.log2 + 1) := by ring
  have hself := den.lt_log2_self
  omega

/-- The binade of a number between one and ten. -/
theorem binade_bounds (hden : 0 < den) (hle : den ≤ num) (hlt : num < 10 * den) :
    0 ≤ binade num den ∧ binade num den ≤ 4 := by
  have hlow := log2_le_of_le hden hle
  have hhigh := log2_lt_of_lt (hden.trans_le hle) hlt
  have hsize : 0 ≤ (num.log2 : ℤ) - den.log2 := by omega
  simp only [binade, if_pos hsize]
  split
  · omega
  · next hless =>
    -- The quotient is at least one, so this is not the lowest binade.
    have hne : (num.log2 : ℤ) - den.log2 ≠ 0 := by
      intro hzero
      rw [hzero] at hless
      exact hless (by simpa using hle)
    omega

theorem magnitude_bounds (hden : 0 < den) (hle : den ≤ num) (hlt : num < 10 * den) :
    magnitude num den ≠ 0 ∧ magnitude num den < infinity := by
  obtain ⟨hlow, hhigh⟩ := binade_bounds hden hle hlt
  have hround := roundRatio_le (num * 2 ^ (-(binade num den - 52)).toNat) den
  have hpow : 2 ^ (-(binade num den - 52)).toNat ≤ 2 ^ 52 :=
    Nat.pow_le_pow_right (by decide) (by omega)
  have hquotient : num * 2 ^ (-(binade num den - 52)).toNat / den < 10 * 2 ^ 52 := by
    rw [Nat.div_lt_iff_lt_mul hden]
    calc num * 2 ^ (-(binade num den - 52)).toNat ≤ num * 2 ^ 52 := Nat.mul_le_mul_left _ hpow
      _ < 10 * den * 2 ^ 52 := Nat.mul_lt_mul_of_pos_right hlt (by decide)
      _ = 10 * 2 ^ 52 * den := by ring
  have hunit : max (binade num den - 52) (-1074) = binade num den - 52 := by omega
  have hfield : 1022 ≤ (binade num den - 52 + 1074).toNat ∧
      (binade num den - 52 + 1074).toNat ≤ 1026 := by omega
  unfold magnitude infinity
  dsimp only
  rw [hunit, if_neg (by omega)]
  simp only [Nat.pow_eq]
  omega

/-- A decimal with its point behind the first digit lies between one and ten. -/
theorem isSome_ofDecimal? {digits places : ℕ} (negative : Bool) (hle : 10 ^ places ≤ digits)
    (hlt : digits < 10 ^ (places + 1)) : (ofDecimal? negative digits (-places)).isSome = true := by
  have hden : 0 < 10 ^ places := Nat.pow_pos (by decide)
  have hdigits : digits ≠ 0 := (hden.trans_le hle).ne'
  have hsize : 3 * places ≤ digits.log2 := by
    rw [Nat.le_log2 hdigits, Nat.pow_mul]
    exact (Nat.pow_le_pow_left (by decide) places).trans hle
  rw [Nat.pow_succ'] at hlt
  obtain ⟨hzero, hfinite⟩ := magnitude_bounds hden hle hlt
  have hscaled : (if 0 ≤ -(places : ℤ) then
      magnitude (digits * Nat.pow 10 (-(places : ℤ)).toNat) 1
      else magnitude digits (Nat.pow 10 (- -(places : ℤ)).toNat)) =
      magnitude digits (10 ^ places) := by
    split
    · next hsign =>
      obtain rfl : places = 0 := by omega
      simp
    · rw [neg_neg, Int.toNat_natCast]
      rfl
  unfold ofDecimal?
  dsimp only
  rw [if_neg hdigits, if_neg, if_neg (by omega), hscaled, if_neg (by omega)]
  · rfl
  · rintro ⟨hlarge, hsign⟩
    obtain rfl : places = 0 := by omega
    have hsmall : digits.log2 < 4 := by
      rw [Nat.log2_lt hdigits]
      omega
    omega

/-- Whatever its digits are, a decimal is in range with some exponent. -/
theorem exists_ofDecimal? (negative : Bool) (digits : ℕ) :
    ∃ exponent x, ofDecimal? negative digits exponent = some x := by
  by_cases hdigits : digits = 0
  · exact ⟨0, _, by rw [ofDecimal?, if_pos hdigits]⟩
  · have hle := Nat.pow_log_le_self 10 hdigits
    have hlt := Nat.lt_pow_succ_log_self (b := 10) (by decide) digits
    exact ⟨_, Option.isSome_iff_exists.mp (isSome_ofDecimal? negative hle hlt)⟩

end NativeBuild.Binary64
