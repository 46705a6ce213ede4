import Mathlib.Data.Nat.Notation
import NativeBuild.Text

/-!
# Decimal numbers

The decimal digits of a natural number have its value, and they start with a zero only when the
number is zero.
-/
namespace NativeBuild.Text

/-- The digit of a number below ten. -/
def digit (n : ℕ) : UInt8 := (48 + n).toUInt8

theorem toNat_digit {n : ℕ} (h : n < 10) : (digit n).toNat = 48 + n :=
  UInt8.toNat_ofNat_of_lt (by omega : 48 + n < 256)

theorem isDigit_digit {n : ℕ} (h : n < 10) : isDigit (digit n) = true := by
  have hlow : (0x30 : UInt8) ≤ digit n := by
    rw [UInt8.le_iff_toNat_le, toNat_digit h]
    exact Nat.le_add_right 48 n
  have hhigh : digit n ≤ (0x39 : UInt8) := by
    rw [UInt8.le_iff_toNat_le, toNat_digit h]
    show 48 + n ≤ 57
    omega
  simp [isDigit, hlow, hhigh]

theorem ofNat_eq (n : ℕ) :
    ofNat n = (if n < 10 then [] else ofNat (n / 10)) ++ [digit (n % 10)] := by
  have hbyte : ∀ m < 10, (Nat.digitChar m).toUInt8 = digit m := by decide
  unfold ofNat
  rw [Nat.toDigits_eq_if (by decide)]
  split
  · next h => simp [hbyte n h, Nat.mod_eq_of_lt h]
  · simp [hbyte (n % 10) (Nat.mod_lt n (by decide))]

theorem ofNat_ne_nil (n : ℕ) : ofNat n ≠ [] := by
  rw [ofNat_eq]
  simp

theorem isDigit_of_mem_ofNat {n : ℕ} {b : UInt8} (h : b ∈ ofNat n) : isDigit b = true := by
  induction n using Nat.strongRecOn with
  | ind n ih =>
    rw [ofNat_eq] at h
    obtain h | h := List.mem_append.mp h
    · split at h
      · exact absurd h List.not_mem_nil
      · next hn => exact ih (n / 10) (by omega) h
    · obtain rfl := List.mem_singleton.mp h
      exact isDigit_digit (Nat.mod_lt n (by decide))

theorem digitsValue_append_singleton (t : Text) (b : UInt8) :
    digitsValue (t ++ [b]) = 10 * digitsValue t + (b.toNat - 48) := by
  simp [digitsValue]

theorem digitsValue_ofNat (n : ℕ) : digitsValue (ofNat n) = n := by
  induction n using Nat.strongRecOn with
  | ind n ih =>
    rw [ofNat_eq, digitsValue_append_singleton, toNat_digit (Nat.mod_lt n (by decide))]
    by_cases h : n < 10
    · rw [if_pos h]
      show 10 * 0 + (48 + n % 10 - 48) = n
      omega
    · rw [if_neg h, ih (n / 10) (by omega)]
      omega

/-- A number that is not zero starts with another digit. -/
theorem head?_ofNat {n : ℕ} (h : (ofNat n).head? = some (byte '0')) : n = 0 := by
  induction n using Nat.strongRecOn with
  | ind n ih =>
    rw [ofNat_eq] at h
    by_cases hn : n < 10
    · rw [if_pos hn, List.nil_append, List.head?_cons, Nat.mod_eq_of_lt hn] at h
      have hdigit := toNat_digit hn
      rw [Option.some.inj h] at hdigit
      have hzero : (byte '0').toNat = 48 := rfl
      omega
    · rw [if_neg hn] at h
      have hhead : (ofNat (n / 10)).head? = some (byte '0') := by
        obtain ⟨b, t, ht⟩ := List.exists_cons_of_ne_nil (ofNat_ne_nil (n / 10))
        simpa [ht] using h
      have hdiv := ih (n / 10) (by omega) hhead
      omega

end NativeBuild.Text
