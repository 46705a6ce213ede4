import Mathlib.Algebra.CharP.Two
import Mathlib.Algebra.Field.ZMod
import Mathlib.Algebra.Polynomial.Div
import Mathlib.RingTheory.AdjoinRoot
import NativeBuild.Proofs.Checksum

/-!
# Checksums as remainders

The bits of the register are the coefficients of a polynomial over the field with two elements, in
reverse. A bit step multiplies that polynomial by `X` modulo the Castagnoli polynomial, so it is a
step of a long division, and a byte that is added to the register enters the division four bytes
ahead. The checksum is therefore the remainder of the text with four zero bytes behind it. The first
32 bits of this sequence are complemented, and so is the remainder, which is given in reverse.
-/
namespace NativeBuild.Checksum

open Polynomial

/-! ### Long division -/

/-- The Castagnoli polynomial without its leading term. -/
def castagnoli : BitVec 32 := 0x1EDC6F41

/-- The next coefficient of the dividend enters a division, and the divisor is subtracted if a
leading term comes out. -/
def divideBit (r : BitVec 32) (b : Bool) : BitVec 32 :=
  if r.msb then r.shiftConcat b ^^^ castagnoli else r.shiftConcat b

/-- The remainder of the polynomial with these coefficients, of which the highest comes first. -/
def remainder (bits : List Bool) : BitVec 32 := bits.foldl divideBit 0

/-- The bits of a byte, the low bit first. -/
def byteBits (b : UInt8) : List Bool := (List.range 8).map b.toBitVec.getLsbD

def messageBits (t : Text) : List Bool := t.flatMap byteBits

def complementFirst (n : ℕ) (bits : List Bool) : List Bool :=
  (bits.take n).map (!·) ++ bits.drop n

/-- The text with 32 zero bits behind it, and the first 32 bits of all this complemented. -/
def dividend (t : Text) : List Bool :=
  complementFirst 32 (messageBits t ++ List.replicate 32 false)

/-! ### Polynomials of bits -/

def coefficient (b : Bool) : ZMod 2 := if b then 1 else 0

/-- The polynomial with the bits of a word as coefficients, the low bit as the constant one. -/
noncomputable def ofWord {n : ℕ} (w : BitVec n) : (ZMod 2)[X] :=
  ∑ i ∈ Finset.range n, monomial i (coefficient (w.getLsbD i))

/-- The polynomial with some bits as coefficients, the highest first. -/
noncomputable def ofBits : List Bool → (ZMod 2)[X]
  | [] => 0
  | b :: more => monomial more.length (coefficient b) + ofBits more

/-- The Castagnoli polynomial. -/
noncomputable def generator : (ZMod 2)[X] := X ^ 32 + ofWord castagnoli

theorem coefficient_xor (a b : Bool) : coefficient (a ^^ b) = coefficient a + coefficient b := by
  cases a <;> cases b <;> decide

theorem coefficient_injective : Function.Injective coefficient := by decide

@[simp] theorem coeff_ofWord {n : ℕ} (w : BitVec n) (i : ℕ) :
    (ofWord w).coeff i = coefficient (w.getLsbD i) := by
  simp only [ofWord, finsetSum_coeff, coeff_monomial, Finset.sum_ite_eq', Finset.mem_range]
  split
  · rfl
  · next hi => simp [BitVec.getLsbD_of_ge w i (Nat.le_of_not_lt hi), coefficient]

theorem ofWord_injective {n : ℕ} : Function.Injective (@ofWord n) := by
  intro v w h
  refine BitVec.eq_of_getLsbD_eq fun i _ => coefficient_injective ?_
  simpa using congrArg (fun p => p.coeff i) h

theorem degree_ofWord_lt {n : ℕ} (w : BitVec n) : (ofWord w).degree < n := by
  rw [degree_lt_iff_coeff_zero]
  intro i hi
  simp [BitVec.getLsbD_of_ge w i hi, coefficient]

@[simp] theorem ofWord_zero (n : ℕ) : ofWord (0 : BitVec n) = 0 := by
  ext i
  simp [coefficient]

@[simp] theorem ofWord_xor {n : ℕ} (v w : BitVec n) :
    ofWord (v ^^^ w) = ofWord v + ofWord w := by
  ext i
  simp [coefficient_xor]

theorem ofBits_append (s t : List Bool) :
    ofBits (s ++ t) = X ^ t.length * ofBits s + ofBits t := by
  induction s with
  | nil => simp [ofBits]
  | cons b s ih =>
    rw [List.cons_append, ofBits, ofBits, ih, mul_add, X_pow_mul_monomial, List.length_append]
    ring

@[simp] theorem ofBits_replicate_false (n : ℕ) : ofBits (List.replicate n false) = 0 := by
  induction n with
  | zero => rfl
  | succ n ih => simp [List.replicate_succ, ofBits, ih, coefficient]

/-- Complementing bits adds a polynomial with all coefficients set. -/
theorem ofBits_map_not (bits : List Bool) :
    ofBits (bits.map (!·)) = ofBits bits + ofBits (List.replicate bits.length true) := by
  induction bits with
  | nil => simp [ofBits]
  | cons b bits ih =>
    rw [List.map_cons, List.length_cons, List.replicate_succ, ofBits, ofBits, ofBits, ih,
      ← Bool.xor_true b, coefficient_xor]
    simp only [List.length_map, List.length_replicate, map_add]
    ring

theorem coeff_ofBits (bits : List Bool) (i : ℕ) :
    (ofBits bits).coeff i = coefficient (bits.reverse[i]?.getD false) := by
  induction bits with
  | nil => simp [ofBits, coefficient]
  | cons b bits ih =>
    rw [ofBits, coeff_add, coeff_monomial, ih, List.reverse_cons]
    obtain hi | rfl | hi := Nat.lt_trichotomy i bits.length
    · rw [if_neg (by omega), zero_add, List.getElem?_append_left (by simpa using hi)]
    · simp [coefficient]
    · have hout : ([b] : List Bool)[i - bits.reverse.length]? = none := by
        simp
        omega
      rw [if_neg (by omega), zero_add, List.getElem?_append_right (by simp; omega), hout,
        List.getElem?_eq_none (by simp; omega)]

/-- The bits of a word, the low bit first, are the coefficients of the word in reverse. -/
theorem ofBits_lowFirst {n : ℕ} (w : BitVec n) :
    ofBits ((List.range n).map w.getLsbD) = ofWord w.reverse := by
  ext i
  rw [coeff_ofBits, coeff_ofWord, BitVec.getLsbD_reverse, BitVec.getMsbD_eq_getLsbD]
  by_cases hi : i < n
  · have hlast : n - 1 - i < n := by omega
    rw [List.getElem?_reverse (by simpa using hi)]
    simp [hi, hlast]
  · rw [List.getElem?_eq_none (by simp; omega)]
    simp [hi]

/-! ### The division and what it leaves -/

theorem generator_monic : generator.Monic := monic_X_pow_add (degree_ofWord_lt castagnoli)

theorem degree_generator : generator.degree = 32 := by
  have hlt : (ofWord castagnoli).degree < (X ^ 32 : (ZMod 2)[X]).degree := by
    rw [degree_X_pow]
    exact degree_ofWord_lt castagnoli
  rw [generator, degree_add_eq_left_of_degree_lt hlt, degree_X_pow]
  rfl

/-- The class of a polynomial modulo the Castagnoli polynomial. -/
noncomputable def residue : (ZMod 2)[X] →+* AdjoinRoot generator := AdjoinRoot.mk generator

@[simp] theorem residue_generator : residue generator = 0 := AdjoinRoot.mk_self

/-- A word is the remainder of every polynomial in its class. -/
theorem ofWord_eq_modByMonic {w : BitVec 32} {p : (ZMod 2)[X]}
    (h : residue (ofWord w) = residue p) : ofWord w = p %ₘ generator := by
  have hdvd : generator ∣ ofWord w - p := AdjoinRoot.mk_eq_mk.mp h
  have hsmall : (ofWord w).degree < generator.degree := by
    rw [degree_generator]
    exact degree_ofWord_lt w
  rw [← modByMonic_eq_of_dvd_sub generator_monic hdvd]
  exact ((modByMonic_eq_self_iff generator_monic).mpr hsmall).symm

/-- A word that moves up by one place: what comes in below, and what goes out above. -/
theorem ofWord_shiftConcat (r : BitVec 32) (b : Bool) :
    ofWord (r.shiftConcat b) + C (coefficient r.msb) * X ^ 32 =
      X * ofWord r + C (coefficient b) := by
  ext i
  rw [coeff_add, coeff_add, coeff_ofWord, coeff_C_mul_X_pow, BitVec.getLsbD_shiftConcat,
    BitVec.msb_eq_getLsbD_last]
  cases i with
  | zero => simp
  | succ i =>
    rw [coeff_X_mul, coeff_ofWord, coeff_C_succ]
    obtain hi | rfl | hi := Nat.lt_trichotomy i 31
    · have hin : i + 1 < 32 := by omega
      simp [hin, hin.ne]
    · simp [coefficient]
    · have hout : 32 < i + 1 := by omega
      simp [hout.not_gt, hout.ne', BitVec.getLsbD_of_ge r i (by omega), coefficient]

theorem residue_divideBit (r : BitVec 32) (b : Bool) :
    residue (ofWord (divideBit r b)) = residue (X * ofWord r + C (coefficient b)) := by
  rw [← ofWord_shiftConcat]
  unfold divideBit
  cases r.msb with
  | false => simp [coefficient]
  | true =>
    -- The leading term is replaced by the rest of the divisor.
    have hleading : residue (ofWord castagnoli) = residue (X ^ 32) := by
      have hrest : ofWord castagnoli = generator + X ^ 32 := by
        rw [generator, add_right_comm, CharTwo.add_self_eq_zero, zero_add]
      rw [hrest, map_add, residue_generator, zero_add]
    simp [coefficient, hleading]

theorem residue_division (r : BitVec 32) (bits : List Bool) :
    residue (ofWord (bits.foldl divideBit r)) =
      residue (X ^ bits.length * ofWord r + ofBits bits) := by
  induction bits generalizing r with
  | nil => simp [ofBits]
  | cons b bits ih =>
    rw [List.foldl_cons, ih, map_add, map_mul, residue_divideBit, ← map_mul, ← map_add,
      ofBits, List.length_cons, ← C_mul_X_pow_eq_monomial]
    refine congrArg residue ?_
    ring

/-- Long division leaves the remainder. -/
theorem ofWord_remainder (bits : List Bool) :
    ofWord (remainder bits) = ofBits bits %ₘ generator := by
  apply ofWord_eq_modByMonic
  rw [remainder, residue_division, ofWord_zero, mul_zero, zero_add]

theorem eq_remainder {w : BitVec 32} {bits : List Bool}
    (h : residue (ofWord w) = residue (ofBits bits)) : w = remainder bits := by
  apply ofWord_injective
  rw [ofWord_eq_modByMonic h, ofWord_remainder]

/-! ### The register -/

theorem reverse_xor {n : ℕ} (v w : BitVec n) : (v ^^^ w).reverse = v.reverse ^^^ w.reverse := by
  refine BitVec.eq_of_getLsbD_eq fun i _ => ?_
  simp only [BitVec.getLsbD_reverse, BitVec.getLsbD_xor, BitVec.getMsbD_xor]

theorem reverse_shiftRight_one {n : ℕ} (w : BitVec n) :
    (w >>> 1).reverse = w.reverse.shiftConcat false := by
  refine BitVec.eq_of_getLsbD_eq fun i hi => ?_
  rw [BitVec.getLsbD_reverse, BitVec.getMsbD_eq_getLsbD, BitVec.getLsbD_ushiftRight,
    BitVec.getLsbD_shiftConcat, BitVec.getLsbD_reverse, BitVec.getMsbD_eq_getLsbD]
  cases i with
  | zero => simp [hi, BitVec.getLsbD_of_ge w (1 + (n - 1)) (by omega)]
  | succ i =>
    have hplace : 1 + (n - 1 - (i + 1)) = n - 1 - i := by omega
    have hlt : i < n := by omega
    simp [hi, hlt, hplace]

/-- A bit step is a step of the division with a zero. -/
theorem reverse_step (x : UInt32) :
    (step x).toBitVec.reverse = divideBit x.toBitVec.reverse false := by
  have hpolynomial : polynomial.toBitVec.reverse = castagnoli := by decide +kernel
  have hlow : x &&& 1 = 1 ↔ x.toBitVec.reverse.msb = true := by
    rw [and_one_eq_one_iff, BitVec.msb_reverse]
    simp [BitVec.getLsbD, Nat.testBit_zero]
  unfold step divideBit
  by_cases h : x &&& 1 = 1
  · rw [if_pos h, if_pos (hlow.mp h), UInt32.toBitVec_xor, reverse_xor, hpolynomial,
      ← reverse_shiftRight_one]
    rfl
  · rw [if_neg h, if_neg (h ∘ hlow.mpr), ← reverse_shiftRight_one]
    rfl

theorem reverse_steps (n : ℕ) (x : UInt32) : (steps n x).toBitVec.reverse =
    (List.replicate n false).foldl divideBit x.toBitVec.reverse := by
  induction n generalizing x with
  | zero => rfl
  | succ n ih => rw [steps, ih, reverse_step, List.replicate_succ, List.foldl_cons]

/-- A byte in the register stands in front of 24 zero bits. -/
theorem ofWord_reverse_byte (b : UInt8) :
    ofWord b.toUInt32.toBitVec.reverse = X ^ 24 * ofBits (byteBits b) := by
  rw [byteBits, ofBits_lowFirst]
  ext i
  rw [coeff_ofWord, coeff_X_pow_mul', coeff_ofWord, BitVec.getLsbD_reverse,
    BitVec.getMsbD_eq_getLsbD, BitVec.getLsbD_reverse, BitVec.getMsbD_eq_getLsbD]
  by_cases hi : 24 ≤ i
  · rw [if_pos hi]
    by_cases hout : i < 32
    · have hplace : 8 - 1 - (i - 24) = 32 - 1 - i := by omega
      have hbyte : i - 24 < 8 := by omega
      have hword : 31 - i < 32 := by omega
      simp [hout, hbyte, hplace, hword]
    · have hbyte : ¬i - 24 < 8 := by omega
      simp [hout, hbyte]
  · rw [if_neg hi]
    simp [BitVec.getLsbD_of_ge b.toBitVec (31 - i) (by omega), coefficient]

theorem residue_update (crc : UInt32) (b : UInt8) :
    residue (ofWord (update crc b).toBitVec.reverse) =
      residue (X ^ 8 * ofWord crc.toBitVec.reverse + X ^ 32 * ofBits (byteBits b)) := by
  rw [update_eq, reverse_steps, residue_division, UInt32.toBitVec_xor, reverse_xor, ofWord_xor,
    ofWord_reverse_byte, ofBits_replicate_false, List.length_replicate]
  refine congrArg residue ?_
  ring

@[simp] theorem length_byteBits (b : UInt8) : (byteBits b).length = 8 := by simp [byteBits]

/-- The bytes of a text enter the division 32 bits ahead. -/
theorem residue_foldl_update (crc : UInt32) (t : Text) :
    residue (ofWord (t.foldl update crc).toBitVec.reverse) =
      residue (X ^ (messageBits t).length * ofWord crc.toBitVec.reverse +
        X ^ 32 * ofBits (messageBits t)) := by
  induction t generalizing crc with
  | nil => simp [messageBits, ofBits]
  | cons b t ih =>
    have hcons : messageBits (b :: t) = byteBits b ++ messageBits t := rfl
    rw [List.foldl_cons, ih, map_add, map_mul, residue_update, ← map_mul, ← map_add, hcons,
      ofBits_append, List.length_append, length_byteBits]
    refine congrArg residue ?_
    ring

theorem ofBits_complementFirst {n : ℕ} {bits : List Bool} (h : n ≤ bits.length) :
    ofBits (complementFirst n bits) =
      X ^ (bits.length - n) * ofBits (List.replicate n true) + ofBits bits := by
  have hbits : ofBits bits =
      X ^ (bits.length - n) * ofBits (bits.take n) + ofBits (bits.drop n) := by
    rw [← List.length_drop, ← ofBits_append, List.take_append_drop]
  rw [complementFirst, ofBits_append, ofBits_map_not, List.length_take, Nat.min_eq_left h,
    List.length_drop, hbits]
  ring

theorem ofBits_dividend (t : Text) : ofBits (dividend t) =
    X ^ (messageBits t).length * ofBits (List.replicate 32 true) +
      X ^ 32 * ofBits (messageBits t) := by
  have hlength : (messageBits t ++ List.replicate 32 false).length =
      (messageBits t).length + 32 := by simp
  rw [dividend, ofBits_complementFirst (by omega), hlength, Nat.add_sub_cancel, ofBits_append,
    List.length_replicate, ofBits_replicate_false, add_zero]

/-- The checksum is the complement of the remainder in reverse. -/
theorem crc_eq_remainder (t : Text) :
    (crc t).toBitVec = ~~~(remainder (dividend t)).reverse ∧
      ofWord (remainder (dividend t)) = ofBits (dividend t) %ₘ generator := by
  refine ⟨?_, ofWord_remainder _⟩
  have hregister : (t.foldl update 0xFFFFFFFF).toBitVec.reverse = remainder (dividend t) := by
    apply eq_remainder
    have hones : ofWord (0xFFFFFFFF : UInt32).toBitVec.reverse =
        ofBits (List.replicate 32 true) := by
      rw [← ofBits_lowFirst]
      rfl
    rw [residue_foldl_update, ofBits_dividend, hones]
  rw [crc, UInt32.toBitVec_xor, ← hregister, BitVec.reverse_reverse_eq]
  exact BitVec.xor_allOnes

example : ~~~(remainder (dividend (utf8 "123456789"))).reverse = 0xE3069283 := by decide +kernel

end NativeBuild.Checksum
