import Mathlib.Data.Nat.Bitwise
import Mathlib.Tactic.Ring
import NativeBuild.Checksum

/-!
# What a checksum tells apart

The register of the checksum takes a byte in eight bit steps. A bit step respects exclusive or, and
it loses nothing: the bit it shifts out comes back as the highest bit. So bytes in front of a window
and bytes behind it neither hide nor make a difference between two texts, and a window of four bytes
is as wide as the register.
-/
namespace NativeBuild

namespace Checksum

/-! ### Bit steps -/

theorem and_one_eq_one_iff (x : UInt32) : x &&& 1 = 1 ↔ x.toNat % 2 = 1 := by
  rw [← UInt32.toNat_inj, UInt32.toNat_and, UInt32.toNat_one, Nat.and_one_is_mod]

theorem toNat_shiftRight_one (x : UInt32) : (x >>> 1).toNat = x.toNat / 2 := by
  simp [Nat.shiftRight_eq_div_pow]

theorem step_of_odd {x : UInt32} (h : x.toNat % 2 = 1) : step x = (x >>> 1) ^^^ polynomial := by
  rw [step, if_pos ((and_one_eq_one_iff x).mpr h)]

theorem step_of_even {x : UInt32} (h : x.toNat % 2 = 0) : step x = x >>> 1 := by
  have hbit : ¬ x &&& 1 = 1 := by
    rw [and_one_eq_one_iff]
    omega
  rw [step, if_neg hbit]

theorem step_xor (x y : UInt32) : step (x ^^^ y) = step x ^^^ step y := by
  have hlow : (x ^^^ y).toNat % 2 = (x.toNat + y.toNat) % 2 := by
    rw [UInt32.toNat_xor, Nat.xor_mod_two_eq]
  have hcancel (a b p : UInt32) : a ^^^ b = a ^^^ p ^^^ (b ^^^ p) := by
    calc a ^^^ b = a ^^^ b ^^^ (p ^^^ p) := by simp
      _ = a ^^^ p ^^^ (b ^^^ p) := by ac_rfl
  obtain hx | hx := Nat.mod_two_eq_zero_or_one x.toNat
  · obtain hy | hy := Nat.mod_two_eq_zero_or_one y.toNat
    · rw [step_of_even hx, step_of_even hy, step_of_even (by omega), UInt32.shiftRight_xor]
    · rw [step_of_even hx, step_of_odd hy, step_of_odd (by omega), UInt32.shiftRight_xor,
        UInt32.xor_assoc]
  · obtain hy | hy := Nat.mod_two_eq_zero_or_one y.toNat
    · rw [step_of_odd hx, step_of_even hy, step_of_odd (by omega), UInt32.shiftRight_xor]
      ac_rfl
    · rw [step_of_odd hx, step_of_odd hy, step_of_even (by omega), UInt32.shiftRight_xor]
      exact hcancel _ _ _

/-- The highest bit of the polynomial is set, so an odd register does not become zero. -/
theorem eq_zero_of_step_eq_zero {x : UInt32} (h : step x = 0) : x = 0 := by
  rw [← UInt32.toNat_inj, UInt32.toNat_zero]
  have hlt := x.toNat_lt
  obtain hx | hx := Nat.mod_two_eq_zero_or_one x.toNat
  · rw [step_of_even hx, ← UInt32.toNat_inj, toNat_shiftRight_one, UInt32.toNat_zero] at h
    omega
  · rw [step_of_odd hx, UInt32.xor_eq_zero_iff, ← UInt32.toNat_inj, toNat_shiftRight_one,
      show polynomial.toNat = 0x82F63B78 from rfl] at h
    omega

theorem steps_xor (n : ℕ) (x y : UInt32) : steps n (x ^^^ y) = steps n x ^^^ steps n y := by
  induction n generalizing x y with
  | zero => rfl
  | succ n ih => rw [steps, steps, steps, step_xor, ih]

theorem eq_zero_of_steps_eq_zero {n : ℕ} {x : UInt32} (h : steps n x = 0) : x = 0 := by
  induction n generalizing x with
  | zero => exact h
  | succ n ih => exact eq_zero_of_step_eq_zero (ih h)

theorem steps_injective (n : ℕ) : Function.Injective (steps n) := by
  intro x y h
  rw [← UInt32.xor_eq_zero_iff] at h ⊢
  rw [← steps_xor] at h
  exact eq_zero_of_steps_eq_zero h

/-- While the bits shifted out are clear, a register is only shifted. -/
theorem toNat_steps_of_dvd {n : ℕ} {x : UInt32} (h : 2 ^ n ∣ x.toNat) :
    (steps n x).toNat = x.toNat / 2 ^ n := by
  induction n generalizing x with
  | zero => simp [steps]
  | succ n ih =>
    obtain ⟨k, hk⟩ := h
    have heven : x.toNat = 2 * (2 ^ n * k) := by
      rw [hk]
      ring
    have hstep : (step x).toNat = 2 ^ n * k := by
      rw [step_of_even (by omega), toNat_shiftRight_one]
      omega
    have hpos : 0 < 2 ^ n := Nat.two_pow_pos n
    rw [steps, ih ⟨k, hstep⟩, hstep, hk, Nat.mul_div_cancel_left k hpos,
      Nat.mul_div_cancel_left k (Nat.two_pow_pos (n + 1))]

/-! ### Bytes -/

theorem toNat_low (x : UInt32) : (x &&& (0xFF : UInt32)).toNat = x.toNat % 2 ^ 8 := by
  rw [UInt32.toNat_and]
  exact Nat.and_two_pow_sub_one_eq_mod x.toNat 8

theorem toNat_high (x : UInt32) : ((x >>> 8) <<< 8).toNat = x.toNat / 2 ^ 8 * 2 ^ 8 := by
  have hlt := x.toNat_lt
  simp only [UInt32.toNat_shiftLeft, UInt32.toNat_shiftRight, UInt32.reduceToNat, Nat.reduceMod,
    Nat.shiftRight_eq_div_pow, Nat.shiftLeft_eq]
  omega

/-- A register is its low byte and what is above it. -/
theorem low_xor_high (x : UInt32) : (x &&& (0xFF : UInt32)) ^^^ ((x >>> 8) <<< 8) = x := by
  rw [← UInt32.toNat_inj, UInt32.toNat_xor, toNat_low, toNat_high]
  have hmod : (x.toNat % 2 ^ 8 ^^^ x.toNat / 2 ^ 8 * 2 ^ 8) % 2 ^ 8 = x.toNat % 2 ^ 8 := by
    rw [Nat.xor_mod_two_pow, Nat.mod_mod, Nat.mul_mod_left, Nat.xor_zero]
  have hdiv : (x.toNat % 2 ^ 8 ^^^ x.toNat / 2 ^ 8 * 2 ^ 8) / 2 ^ 8 = x.toNat / 2 ^ 8 := by
    rw [Nat.xor_div_two_pow, Nat.mul_div_cancel _ (Nat.two_pow_pos 8),
      Nat.div_eq_of_lt (Nat.mod_lt _ (Nat.two_pow_pos 8)), Nat.zero_xor]
  omega

/-- What stands above the low byte only moves down in eight bit steps. -/
theorem steps_eight_high (x : UInt32) : steps 8 ((x >>> 8) <<< 8) = x >>> 8 := by
  have hhigh := toNat_high x
  rw [← UInt32.toNat_inj, toNat_steps_of_dvd (n := 8) ⟨_, hhigh.trans (Nat.mul_comm _ _)⟩, hhigh,
    Nat.mul_div_cancel _ (Nat.two_pow_pos 8), UInt32.toNat_shiftRight]
  exact (Nat.shiftRight_eq_div_pow _ _).symm

theorem getElem?_table {i : UInt32} (h : i.toNat < 256) :
    table[i.toNat]? = some (steps 8 i) := by
  rw [table, Array.getElem?_ofFn, dif_pos h]
  simp

/-- One look-up in the table takes the eight bits of a byte at once. -/
theorem update_eq (crc : UInt32) (b : UInt8) : update crc b = steps 8 (crc ^^^ b.toUInt32) := by
  have hbyte : b.toUInt32 >>> 8 = 0 := by
    have hlt := b.toNat_lt
    rw [← UInt32.toNat_inj, UInt32.toNat_shiftRight, UInt8.toNat_toUInt32]
    simp only [UInt32.reduceToNat, Nat.reduceMod, Nat.shiftRight_eq_div_pow]
    omega
  have hlow : ((crc ^^^ b.toUInt32) &&& 0xFF).toNat < 256 := by
    rw [toNat_low]
    exact Nat.mod_lt _ (Nat.two_pow_pos 8)
  calc update crc b = steps 8 ((crc ^^^ b.toUInt32) &&& 0xFF) ^^^ (crc >>> 8) := by
        simp only [update, getElem?_table hlow, Option.getD_some]
    _ = steps 8 ((crc ^^^ b.toUInt32) &&& 0xFF) ^^^ ((crc ^^^ b.toUInt32) >>> 8) := by
        rw [UInt32.shiftRight_xor, hbyte, UInt32.xor_zero]
    _ = steps 8 (crc ^^^ b.toUInt32) := by
        rw [← steps_eight_high, ← steps_xor, low_xor_high]

theorem update_xor_update (x y : UInt32) (b c : UInt8) :
    update x b ^^^ update y c = steps 8 ((x ^^^ y) ^^^ (b.toUInt32 ^^^ c.toUInt32)) := by
  rw [update_eq, update_eq, ← steps_xor]
  congr 1
  ac_rfl

theorem toNat_byte_xor_lt (b c : UInt8) : (b.toUInt32 ^^^ c.toUInt32).toNat < 2 ^ 8 := by
  rw [UInt32.toNat_xor, UInt8.toNat_toUInt32, UInt8.toNat_toUInt32]
  exact Nat.xor_lt_two_pow b.toNat_lt c.toNat_lt

/-- Behind different registers the same bytes leave different registers. -/
theorem foldl_update_injective (t : Text) : Function.Injective fun crc => t.foldl update crc := by
  induction t with
  | nil => exact fun _ _ h => h
  | cons b t ih =>
    intro x y h
    have hupdate : update x b = update y b := ih h
    rw [update_eq, update_eq] at hupdate
    exact (UInt32.xor_left_inj b.toUInt32).mp (steps_injective 8 hupdate)

/-! ### Windows -/

/-- A register that eight bit steps leave with a clear highest byte was shifted by them. -/
theorem toNat_eq_of_toNat_steps_lt {x : UInt32} (h : (steps 8 x).toNat < 2 ^ 24) :
    x.toNat = (steps 8 x).toNat * 2 ^ 8 := by
  have hshift : (steps 8 x <<< 8).toNat = (steps 8 x).toNat * 2 ^ 8 := by
    simp only [UInt32.toNat_shiftLeft, UInt32.reduceToNat, Nat.reduceMod, Nat.shiftLeft_eq]
    omega
  have hsteps : steps 8 (steps 8 x <<< 8) = steps 8 x := by
    rw [← UInt32.toNat_inj,
      toNat_steps_of_dvd (n := 8) ⟨_, hshift.trans (Nat.mul_comm _ _)⟩, hshift,
      Nat.mul_div_cancel _ (Nat.two_pow_pos 8)]
  rw [← hshift, steps_injective 8 hsteps]

/-- Two texts of one length, at most as wide as the register, that lead to the same register: where
they set out, the registers differ in no more than as many low bytes. -/
theorem toNat_xor_lt_of_foldl_update_eq {s t : Text} (hlength : s.length = t.length)
    (hwidth : s.length ≤ 4) {x y : UInt32} (h : s.foldl update x = t.foldl update y) :
    (x ^^^ y).toNat < 2 ^ (8 * s.length) := by
  induction s generalizing t x y with
  | nil =>
    obtain rfl := List.length_eq_zero_iff.mp hlength.symm
    have hxy : x = y := h
    simp [hxy]
  | cons b s ih =>
    cases t with
    | nil => cases hlength
    | cons c t =>
      rw [List.length_cons] at hwidth
      have hsmall := ih (Nat.succ.inj hlength) (by omega) h
      rw [update_xor_update] at hsmall
      have hwide : ((x ^^^ y) ^^^ (b.toUInt32 ^^^ c.toUInt32)).toNat < 2 ^ (8 * s.length + 8) := by
        have hle : 2 ^ (8 * s.length) ≤ 2 ^ 24 := Nat.pow_le_pow_right (by omega) (by omega)
        rw [toNat_eq_of_toNat_steps_lt (hsmall.trans_le hle), Nat.pow_add]
        omega
      have hbyte : (b.toUInt32 ^^^ c.toUInt32).toNat < 2 ^ (8 * s.length + 8) := by
        calc (b.toUInt32 ^^^ c.toUInt32).toNat < 2 ^ 8 := toNat_byte_xor_lt b c
          _ ≤ 2 ^ (8 * s.length + 8) := Nat.pow_le_pow_right (by omega) (by omega)
      have hback : x ^^^ y = (x ^^^ y) ^^^ (b.toUInt32 ^^^ c.toUInt32) ^^^
          (b.toUInt32 ^^^ c.toUInt32) := by
        rw [UInt32.xor_assoc, UInt32.xor_self, UInt32.xor_zero]
      rw [hback, UInt32.toNat_xor, List.length_cons]
      exact Nat.xor_lt_two_pow hwide hbyte

/-- From one register, two texts of one length at most as wide as the register lead to the same
register only if they are the same. -/
theorem eq_of_foldl_update_eq {s t : Text} (hlength : s.length = t.length)
    (hwidth : s.length ≤ 4) {x : UInt32} (h : s.foldl update x = t.foldl update x) : s = t := by
  induction s generalizing t x with
  | nil => exact (List.length_eq_zero_iff.mp hlength.symm).symm
  | cons b s ih =>
    cases t with
    | nil => cases hlength
    | cons c t =>
      rw [List.length_cons] at hwidth
      have hlength' : s.length = t.length := Nat.succ.inj hlength
      have hsmall : (update x b ^^^ update x c).toNat < 2 ^ (8 * s.length) :=
        toNat_xor_lt_of_foldl_update_eq hlength' (by omega) h
      rw [update_xor_update, UInt32.xor_self, UInt32.zero_xor] at hsmall
      have hle : 2 ^ (8 * s.length) ≤ 2 ^ 24 := Nat.pow_le_pow_right (by omega) (by omega)
      have hshift := toNat_eq_of_toNat_steps_lt (hsmall.trans_le hle)
      have hbyte := toNat_byte_xor_lt b c
      have hzero : b.toUInt32 ^^^ c.toUInt32 = 0 := by
        rw [← UInt32.toNat_inj, UInt32.toNat_zero]
        omega
      obtain rfl : b = c := by
        rw [UInt32.xor_eq_zero_iff, ← UInt32.toNat_inj] at hzero
        rw [← UInt8.toNat_inj]
        simpa using hzero
      rw [ih hlength' (by omega) h]

/-- Two texts of one length that are the same but for some bytes, `n` at most, that stand in a
row. -/
def DiffersWithin (n : ℕ) (s t : Text) : Prop :=
  ∃ head old new tail, s = head ++ old ++ tail ∧ t = head ++ new ++ tail ∧
    old.length = new.length ∧ old.length ≤ n ∧ old ≠ new

theorem crc_ne_of_differsWithin {s t : Text} (h : DiffersWithin 4 s t) : crc s ≠ crc t := by
  obtain ⟨head, old, new, tail, rfl, rfl, hlength, hwidth, hne⟩ := h
  intro hcrc
  have hwhole := (UInt32.xor_left_inj 0xFFFFFFFF).mp hcrc
  simp only [List.foldl_append] at hwhole
  exact hne (eq_of_foldl_update_eq hlength hwidth (foldl_update_injective tail hwhole))

/-! ### Stamps -/

theorem hexDigit_inj {m n : ℕ} (hm : m < 16) (hn : n < 16)
    (h : Text.hexDigit m = Text.hexDigit n) : m = n := by
  have hall : ∀ i j : Fin 16, Text.hexDigit i = Text.hexDigit j → i = j := by decide
  exact congrArg Fin.val (hall ⟨m, hm⟩ ⟨n, hn⟩ h)

theorem hex_inj {width m n : ℕ} (hm : m < 16 ^ width) (hn : n < 16 ^ width)
    (h : Text.hex width m = Text.hex width n) : m = n := by
  induction width generalizing m n with
  | zero =>
    rw [Nat.pow_zero] at hm hn
    omega
  | succ width ih =>
    rw [Nat.pow_succ] at hm hn
    obtain ⟨hhigh, hlow⟩ := List.append_inj' h rfl
    have hdiv : m / 16 = n / 16 := ih (by omega) (by omega) hhigh
    have hmod : m % 16 = n % 16 :=
      hexDigit_inj (Nat.mod_lt _ (by omega)) (Nat.mod_lt _ (by omega)) (List.singleton_inj.mp hlow)
    omega

/-- A stamp holds the whole checksum and the low word of the length. -/
theorem stamp_eq_iff (s t : Text) :
    stamp s = stamp t ↔ crc s = crc t ∧ s.length % 2 ^ 32 = t.length % 2 ^ 32 := by
  constructor
  · intro h
    obtain ⟨hcrc, hlength⟩ := List.append_inj h (by simp)
    constructor
    · exact UInt32.toNat_inj.mp (hex_inj (crc s).toNat_lt (crc t).toNat_lt hcrc)
    · exact hex_inj (Nat.mod_lt _ (by omega)) (Nat.mod_lt _ (by omega)) hlength
  · rintro ⟨hcrc, hlength⟩
    rw [stamp, stamp, hcrc, show 0x100000000 = 2 ^ 32 from rfl, hlength]

/-- Lengths that differ in the low word, or a change in four bytes in a row, show in the stamp. -/
theorem stamp_ne {s t : Text}
    (h : s.length % 2 ^ 32 ≠ t.length % 2 ^ 32 ∨ DiffersWithin 4 s t) : stamp s ≠ stamp t := by
  intro hstamp
  obtain ⟨hcrc, hlength⟩ := (stamp_eq_iff s t).mp hstamp
  cases h with
  | inl hlengths => exact hlengths hlength
  | inr hwithin => exact crc_ne_of_differsWithin hwithin hcrc

theorem hexDigit_ne_lineFeed {n : ℕ} (hn : n < 16) : Text.hexDigit n ≠ 0x0A := by
  have hall : ∀ i : Fin 16, Text.hexDigit i ≠ 0x0A := by decide
  exact hall ⟨n, hn⟩

theorem lineFeed_not_mem_hex (width n : ℕ) : 0x0A ∉ Text.hex width n := by
  induction width generalizing n with
  | zero => simp [Text.hex]
  | succ width ih =>
    rw [Text.hex, List.mem_append, List.mem_singleton]
    rintro (hmem | hdigit)
    · exact ih _ hmem
    · exact hexDigit_ne_lineFeed (Nat.mod_lt n (by omega)) hdigit.symm

theorem lineFeed_not_mem_stamp (t : Text) : 0x0A ∉ stamp t := by
  rw [stamp, List.mem_append]
  rintro (hmem | hmem)
  · exact lineFeed_not_mem_hex _ _ hmem
  · exact lineFeed_not_mem_hex _ _ hmem

end Checksum

end NativeBuild
