import Mathlib.Algebra.Group.Int.Defs
import NativeBuild.Proofs.Decimal
import NativeBuild.Proofs.Json.Blanks
import NativeBuild.Proofs.Reads

/-!
# Numbers

A number is a sign, digits, and perhaps a fraction and an exponent. The reader takes the longest
number at the cursor. It therefore reads all of a number that is followed by a byte with which no
number goes on.
-/
namespace NativeBuild.Json

/-- One or more digits. -/
structure Digits (t : Text) : Prop where
  nonempty : t ≠ []
  each : ∀ b ∈ t, Text.isDigit b = true

/-- The digits before the point; they start with a zero only when there is no other. -/
structure Whole (t : Text) : Prop where
  digits : Digits t
  leading : t.head? = some (byte '0') → t = [byte '0']

/-- The point and the digits behind it, or nothing. -/
inductive Fraction : Text → Option Text → Prop where
  | absent : Fraction [] none
  | present {t : Text} (digits : Digits t) : Fraction (byte '.' :: t) (some t)

/-- The sign of an exponent, and whether it is a minus. -/
inductive ExponentSign : Text → Bool → Prop where
  | absent : ExponentSign [] false
  | plus : ExponentSign [byte '+'] false
  | minus : ExponentSign [byte '-'] true

/-- The exponent of a number, or nothing. -/
inductive Exponent : Text → Option ℤ → Prop where
  | absent : Exponent [] none
  | present {letter : UInt8} {sign t : Text} {negative : Bool}
      (either : letter = byte 'e' ∨ letter = byte 'E') (signed : ExponentSign sign negative)
      (digits : Digits t) : Exponent (letter :: (sign ++ t))
        (some (if negative then -(Text.digitsValue t : ℤ) else Text.digitsValue t))

/-- A number as it is written, and its parts. -/
inductive NumberText : Text → Numeral → Prop where
  | mk {negative : Bool} {whole fractionText exponentText : Text} {fraction : Option Text}
      {exponent : Option ℤ} (isWhole : Whole whole) (isFraction : Fraction fractionText fraction)
      (isExponent : Exponent exponentText exponent) :
      NumberText ((if negative then [byte '-'] else []) ++ whole ++ fractionText ++ exponentText)
        ⟨negative, whole, fraction.getD [], exponent.getD 0, fraction.isNone && exponent.isNone⟩

namespace Numeral

/-- The digits before the point with their sign. -/
def signed (n : Numeral) : ℤ :=
  if n.negative then -(Text.digitsValue n.whole : ℤ) else Text.digitsValue n.whole

/-- The number is written as an integer, and has 64 bits. -/
def IsInteger (n : Numeral) : Prop := n.plain = true ∧ -2 ^ 63 ≤ n.signed ∧ n.signed < 2 ^ 63

/-- An integer of at most 64 bits means itself; every other number means the floating-point number
that it is converted to. -/
inductive Means (n : Numeral) : Value → Prop where
  | integer (isInteger : n.IsInteger) : n.Means (.integer n.signed)
  | real {x : Binary64} (notInteger : ¬n.IsInteger)
      (converted : Binary64.ofDecimal? n.negative (Text.digitsValue (n.whole ++ n.fraction))
        (n.exponent - n.fraction.length) = some x) : n.Means (.real x)

/-- The parts of the decimal form of an integer. -/
def ofInt (i : ℤ) : Numeral := ⟨decide (i < 0), Text.ofNat i.natAbs, [], 0, true⟩

/-- The digits of an integer are worth it. -/
theorem signed_ofInt (i : ℤ) : (ofInt i).signed = i := by
  unfold signed ofInt
  dsimp only
  rw [Text.digitsValue_ofNat]
  by_cases hneg : i < 0
  · rw [if_pos (decide_eq_true hneg)]
    omega
  · rw [if_neg (by simpa using hneg)]
    omega

/-- The decimal form of an integer of at most 64 bits means the integer. -/
theorem means_ofInt {i : ℤ} (h : -2 ^ 63 ≤ i ∧ i < 2 ^ 63) : (ofInt i).Means (.integer i) := by
  have hinteger : (ofInt i).IsInteger := ⟨rfl, by rwa [signed_ofInt]⟩
  have hmeans : (ofInt i).Means (.integer (ofInt i).signed) := .integer hinteger
  rwa [signed_ofInt] at hmeans

theorem value?_eq (n : Numeral) [Decidable n.IsInteger] :
    n.value? = if n.IsInteger then some (.integer n.signed)
      else (Binary64.ofDecimal? n.negative (Text.digitsValue (n.whole ++ n.fraction))
        (n.exponent - n.fraction.length)).map .real := by
  have hsigned : (if n.negative then -1 else 1) * (Text.digitsValue n.whole : ℤ) = n.signed := by
    unfold signed
    cases n.negative <;> simp
  unfold value?
  dsimp only
  rw [hsigned]
  exact if_congr Iff.rfl rfl rfl

theorem value?_eq_some_iff (n : Numeral) (v : Value) : n.value? = some v ↔ n.Means v := by
  classical
  rw [value?_eq]
  by_cases h : n.IsInteger
  · rw [if_pos h]
    constructor
    · intro hv
      obtain rfl := Option.some.inj hv
      exact .integer h
    · rintro (_ | ⟨notInteger, -⟩)
      · rfl
      · exact absurd h notInteger
  · rw [if_neg h, Option.map_eq_some_iff]
    constructor
    · rintro ⟨x, hx, rfl⟩
      exact .real h hx
    · rintro (isInteger | ⟨-, converted⟩)
      · exact absurd isInteger h
      · exact ⟨_, converted, rfl⟩

end Numeral

section Decimal

theorem digits_ofNat (n : ℕ) : Digits (Text.ofNat n) :=
  ⟨Text.ofNat_ne_nil n, fun _ hb => Text.isDigit_of_mem_ofNat hb⟩

/-- The decimal form of an integer, as an exponent, is worth the integer. -/
theorem exponent_ofInt {letter : UInt8} (either : letter = byte 'e' ∨ letter = byte 'E') (i : ℤ) :
    Exponent (letter :: Text.ofInt i) (some i) := by
  unfold Text.ofInt
  split
  · next hneg =>
    have hvalue : -(Text.digitsValue (Text.ofNat i.natAbs) : ℤ) = i := by
      rw [Text.digitsValue_ofNat]
      omega
    simpa [hvalue] using Exponent.present either .minus (digits_ofNat i.natAbs)
  · next hneg =>
    have hvalue : (Text.digitsValue (Text.ofNat i.natAbs) : ℤ) = i := by
      rw [Text.digitsValue_ofNat]
      omega
    simpa [hvalue] using Exponent.present either .absent (digits_ofNat i.natAbs)

/-- The decimal form of an integer is a number. -/
theorem numberText_ofInt (i : ℤ) : NumberText (Text.ofInt i) (.ofInt i) := by
  have hwhole : Whole (Text.ofNat i.natAbs) := by
    refine ⟨digits_ofNat i.natAbs, fun hlead => ?_⟩
    rw [Text.head?_ofNat hlead]
    rfl
  have hnumber : NumberText _ (.ofInt i) := .mk hwhole .absent .absent
  have htext : Text.ofInt i = (if decide (i < 0) = true then [byte '-'] else []) ++
      Text.ofNat i.natAbs ++ [] ++ [] := by
    unfold Text.ofInt
    by_cases hneg : i < 0
    · simp [hneg]
    · simp [hneg]
  rw [htext]
  exact hnumber

end Decimal

/-- A read gives `x` and stops before `rest`. -/
abbrev Reads {α : Type} (r : Except Error (α × Cursor)) (x : α) (rest : Text) : Prop :=
  NativeBuild.Reads Cursor.rest r x rest

/-- No number goes on with the byte at the front. -/
structure Stops (rest : Text) : Prop where
  noDigit : RunEnds Text.isDigit rest
  noPoint : rest.head? ≠ some (byte '.')
  noLetter : rest.head? ≠ some (byte 'e') ∧ rest.head? ≠ some (byte 'E')

theorem Cursor.startsWith_iff (b : UInt8) (c : Cursor) :
    c.startsWith b = true ↔ c.rest = b :: c.rest.drop 1 := by
  cases h : c.rest with
  | nil => simp [startsWith, h]
  | cons a t => simp [startsWith, h]

theorem Digits.head {t : Text} (h : Digits t) (rest : Text) :
    ∃ b, (t ++ rest).head? = some b ∧ Text.isDigit b = true := by
  cases t with
  | nil => exact absurd rfl h.nonempty
  | cons b t => exact ⟨b, rfl, h.each b List.mem_cons_self⟩

variable {c d : Cursor} {t rest : Text}

theorem digits_spec (c : Cursor) :
    (∃ d, digits c = ([], d)) ∨
      ∃ b run d, digits c = (b :: run, d) ∧ Digits (b :: run) ∧ c.rest = b :: run ++ d.rest := by
  have hrun := List.prefix_iff_eq_append.mp (List.takeWhile_prefix Text.isDigit (l := c.rest))
  have heach : ∀ b ∈ c.rest.takeWhile Text.isDigit, Text.isDigit b = true := fun b hb =>
    List.mem_takeWhile_imp hb
  simp only [digits]
  cases hr : c.rest.takeWhile Text.isDigit with
  | nil => exact .inl ⟨_, rfl⟩
  | cons b run =>
    rw [hr] at hrun heach
    exact .inr ⟨b, run, _, rfl, ⟨List.cons_ne_nil b run, heach⟩, hrun.symm⟩

theorem digits_eq (h : Digits t) (hc : c.rest = t ++ rest) (hrest : RunEnds Text.isDigit rest) :
    digits c = (t, c.advance t.length) := by
  simp only [digits, hc, hrest.takeWhile h.each]

theorem whole_of_reads {w : Text} (h : Reads (wholePart c) w rest) :
    Whole w ∧ c.rest = w ++ rest := by
  simp only [wholePart] at h
  split at h
  · next hzero =>
    obtain ⟨rfl, rfl⟩ := (Reads.ok_iff ..).mp h
    have hdigit : ∀ b ∈ [byte '0'], Text.isDigit b = true := List.forall_mem_singleton.mpr rfl
    refine ⟨⟨⟨List.cons_ne_nil _ _, hdigit⟩, fun _ => rfl⟩, ?_⟩
    exact (Cursor.startsWith_iff _ c).mp hzero
  · next hzero =>
    obtain ⟨d, hd⟩ | ⟨b, run, d, hd, hdigits, hc⟩ := digits_spec c
    · rw [hd] at h
      exact absurd h (Reads.not_error _ _ _ _)
    · rw [hd] at h
      obtain ⟨rfl, rfl⟩ := (Reads.ok_iff ..).mp h
      refine ⟨⟨hdigits, fun hlead => ?_⟩, hc⟩
      simp only [Cursor.startsWith, hc, List.cons_append, List.head?_cons] at hzero hlead
      simp [hlead] at hzero

theorem reads_of_whole {w : Text} (h : Whole w) (hc : c.rest = w ++ rest)
    (hrest : RunEnds Text.isDigit rest) : Reads (wholePart c) w rest := by
  simp only [wholePart]
  by_cases hzero : c.startsWith (byte '0') = true
  · rw [if_pos hzero]
    have hlead : w.head? = some (byte '0') := by
      cases w with
      | nil => exact absurd rfl h.digits.nonempty
      | cons a w => simpa [Cursor.startsWith, hc] using hzero
    obtain rfl := h.leading hlead
    exact (Reads.ok_iff ..).mpr ⟨rfl, by simp [hc]⟩
  · rw [if_neg hzero, digits_eq h.digits hc hrest]
    cases w with
    | nil => exact absurd rfl h.digits.nonempty
    | cons b w => exact (Reads.ok_iff ..).mpr ⟨rfl, by simp [hc]⟩

theorem fraction_of_reads {f : Option Text} (h : Reads (fractionPart c) f rest) :
    ∃ t, Fraction t f ∧ c.rest = t ++ rest := by
  simp only [fractionPart] at h
  split at h
  · next hpoint =>
    have hc := (Cursor.startsWith_iff _ c).mp hpoint
    obtain ⟨d, hd⟩ | ⟨b, run, d, hd, hdigits, hrun⟩ := digits_spec (c.advance 1)
    · rw [hd] at h
      exact absurd h (Reads.not_error _ _ _ _)
    · rw [hd] at h
      obtain ⟨rfl, rfl⟩ := (Reads.ok_iff ..).mp h
      refine ⟨_, .present hdigits, ?_⟩
      rw [hc, ← Cursor.rest_advance, hrun]
      rfl
  · obtain ⟨rfl, rfl⟩ := (Reads.ok_iff ..).mp h
    exact ⟨[], .absent, rfl⟩

theorem reads_of_fraction {f : Option Text} (h : Fraction t f) (hc : c.rest = t ++ rest)
    (hdigit : RunEnds Text.isDigit rest) (hpoint : rest.head? ≠ some (byte '.')) :
    Reads (fractionPart c) f rest := by
  simp only [fractionPart, Cursor.startsWith, hc]
  cases h with
  | absent =>
    rw [if_neg (by simpa using hpoint)]
    exact (Reads.ok_iff ..).mpr ⟨rfl, hc⟩
  | @present t digits =>
    have hpoint : (List.head? (byte '.' :: t ++ rest) == some (byte '.')) = true := by simp
    rw [if_pos hpoint, digits_eq digits (by simp [hc]) hdigit]
    cases t with
    | nil => exact absurd rfl digits.nonempty
    | cons b t => exact (Reads.ok_iff ..).mpr ⟨rfl, by simp [hc]⟩

/-- The cursor behind the sign of an exponent. -/
def exponentDigits (c : Cursor) : Cursor :=
  if c.startsWith (byte '-') || c.startsWith (byte '+') then c.advance 1 else c

theorem exponentPart_eq (c : Cursor) : exponentPart c =
    if c.startsWith (byte 'e') || c.startsWith (byte 'E') then
      match digits (exponentDigits (c.advance 1)) with
      | ([], _) => (exponentDigits (c.advance 1)).fail .expectedExponent
      | (run, d) => .ok (some (if (c.advance 1).startsWith (byte '-')
          then -(Text.digitsValue run : ℤ) else Text.digitsValue run), d)
    else .ok (none, c) := rfl

theorem exponentSign (c : Cursor) :
    ∃ sign, ExponentSign sign (c.startsWith (byte '-')) ∧
      c.rest = sign ++ (exponentDigits c).rest := by
  unfold exponentDigits
  by_cases hminus : c.startsWith (byte '-') = true
  · rw [hminus]
    exact ⟨_, .minus, (Cursor.startsWith_iff _ c).mp hminus⟩
  · rw [Bool.not_eq_true] at hminus
    rw [hminus, Bool.false_or]
    by_cases hplus : c.startsWith (byte '+') = true
    · rw [if_pos hplus]
      exact ⟨_, .plus, (Cursor.startsWith_iff _ c).mp hplus⟩
    · rw [if_neg hplus]
      exact ⟨_, .absent, rfl⟩

theorem exponentSign_eq {sign : Text} {negative : Bool} (h : ExponentSign sign negative)
    (hdigits : Digits t) (hc : c.rest = sign ++ (t ++ rest)) :
    c.startsWith (byte '-') = negative ∧ (exponentDigits c).rest = t ++ rest := by
  cases h with
  | absent =>
    obtain ⟨b, hb, hdigit⟩ := hdigits.head rest
    have hne : ∀ a, Text.isDigit a = false → c.startsWith a = false := by
      rintro a ha
      rw [Cursor.startsWith, hc, List.nil_append, hb]
      simp only [beq_eq_false_iff_ne, ne_eq, Option.some.injEq]
      rintro rfl
      simp [hdigit] at ha
    simp [exponentDigits, hne (byte '-') (by decide), hne (byte '+') (by decide), hc]
  | plus =>
    have hne : byte '+' ≠ byte '-' := by decide
    simp [exponentDigits, Cursor.startsWith, hc, hne]
  | minus => simp [exponentDigits, Cursor.startsWith, hc]

theorem exponent_of_reads {x : Option ℤ} (h : Reads (exponentPart c) x rest) :
    ∃ t, Exponent t x ∧ c.rest = t ++ rest := by
  rw [exponentPart_eq] at h
  split at h
  · next hletter =>
    obtain ⟨letter, either, hc⟩ : ∃ letter, (letter = byte 'e' ∨ letter = byte 'E') ∧
        c.rest = letter :: (c.advance 1).rest := by
      obtain h | h := Bool.or_eq_true_iff.mp hletter
      · exact ⟨_, .inl rfl, (Cursor.startsWith_iff _ c).mp h⟩
      · exact ⟨_, .inr rfl, (Cursor.startsWith_iff _ c).mp h⟩
    obtain ⟨sign, signed, hsign⟩ := exponentSign (c.advance 1)
    obtain ⟨d, hd⟩ | ⟨b, run, d, hd, hdigits, hrun⟩ := digits_spec (exponentDigits (c.advance 1))
    · rw [hd] at h
      exact absurd h (Reads.not_error _ _ _ _)
    · rw [hd] at h
      obtain ⟨rfl, rfl⟩ := (Reads.ok_iff ..).mp h
      refine ⟨_, .present either signed hdigits, ?_⟩
      rw [hc, hsign, hrun]
      simp
  · obtain ⟨rfl, rfl⟩ := (Reads.ok_iff ..).mp h
    exact ⟨[], .absent, rfl⟩

theorem reads_of_exponent {x : Option ℤ} (h : Exponent t x) (hc : c.rest = t ++ rest)
    (hrest : Stops rest) : Reads (exponentPart c) x rest := by
  rw [exponentPart_eq]
  cases h with
  | absent =>
    obtain ⟨hlower, hupper⟩ := hrest.noLetter
    rw [if_neg (by simpa [Cursor.startsWith, hc] using ⟨hlower, hupper⟩)]
    exact (Reads.ok_iff ..).mpr ⟨rfl, hc⟩
  | @present letter sign t negative either signed digits =>
    have hletter : (c.startsWith (byte 'e') || c.startsWith (byte 'E')) = true := by
      obtain rfl | rfl := either <;> simp [Cursor.startsWith, hc]
    have htail : (c.advance 1).rest = sign ++ (t ++ rest) := by simp [hc]
    obtain ⟨hnegative, hbehind⟩ := exponentSign_eq signed digits htail
    rw [if_pos hletter, hnegative, digits_eq digits hbehind hrest.noDigit]
    cases t with
    | nil => exact absurd rfl digits.nonempty
    | cons b t => exact (Reads.ok_iff ..).mpr ⟨rfl, by simp [hbehind]⟩

theorem numeral_of_reads {n : Numeral} (h : Reads (numeral c) n rest) :
    ∃ t, NumberText t n ∧ c.rest = t ++ rest := by
  obtain ⟨w, c₁, hw, h⟩ := Reads.of_bind h
  obtain ⟨f, c₂, hf, h⟩ := Reads.of_bind h
  obtain ⟨x, c₃, hx, h⟩ := Reads.of_bind h
  obtain ⟨rfl, rfl⟩ := (Reads.ok_iff ..).mp h
  obtain ⟨isWhole, hwhole⟩ := whole_of_reads hw
  obtain ⟨fractionText, isFraction, hfraction⟩ := fraction_of_reads hf
  obtain ⟨exponentText, isExponent, hexponent⟩ := exponent_of_reads hx
  refine ⟨_, .mk isWhole isFraction isExponent, ?_⟩
  have hsign : c.rest = (if c.startsWith (byte '-') then [byte '-'] else []) ++
      (if c.startsWith (byte '-') then c.advance 1 else c).rest := by
    split
    · next hminus => exact (Cursor.startsWith_iff _ c).mp hminus
    · rfl
  rw [hsign, hwhole, hfraction, hexponent]
  simp

theorem Exponent.head {x : Option ℤ} (h : Exponent t x) (hrest : Stops rest) :
    RunEnds Text.isDigit (t ++ rest) ∧ (t ++ rest).head? ≠ some (byte '.') := by
  cases h with
  | absent => exact ⟨hrest.noDigit, hrest.noPoint⟩
  | present either signed digits =>
    obtain rfl | rfl := either
    · exact ⟨by simp [RunEnds]; decide, by simp; decide⟩
    · exact ⟨by simp [RunEnds]; decide, by simp; decide⟩

theorem Fraction.head {f : Option Text} (h : Fraction t f) (hrest : RunEnds Text.isDigit rest) :
    RunEnds Text.isDigit (t ++ rest) := by
  cases h with
  | absent => exact hrest
  | present digits => simp [RunEnds]; decide

theorem reads_of_numeral {n : Numeral} (h : NumberText t n) (hc : c.rest = t ++ rest)
    (hrest : Stops rest) : Reads (numeral c) n rest := by
  obtain @⟨negative, w, f, e, _, _, isWhole, isFraction, isExponent⟩ := h
  obtain ⟨hdigit, hpoint⟩ := isExponent.head hrest
  have hminus : c.startsWith (byte '-') = negative := by
    cases negative with
    | true => simp [Cursor.startsWith, hc]
    | false =>
      obtain ⟨b, hb, hb_digit⟩ := isWhole.digits.head (f ++ (e ++ rest))
      have hne : b ≠ byte '-' := by
        rintro rfl
        exact absurd hb_digit (by decide)
      have hfront : c.rest.head? = some b := by
        rw [hc, ← hb]
        simp
      simp [Cursor.startsWith, hfront, hne]
  have hbehind : (if negative then c.advance 1 else c).rest = w ++ (f ++ (e ++ rest)) := by
    cases negative <;> simp [hc]
  simp only [numeral, hminus]
  refine (reads_of_whole isWhole hbehind (isFraction.head hdigit)).bind fun c₁ hc₁ => ?_
  refine (reads_of_fraction isFraction hc₁ hdigit hpoint).bind fun c₂ hc₂ => ?_
  refine (reads_of_exponent isExponent hc₂ hrest).bind fun c₃ hc₃ => ?_
  exact (Reads.ok_iff ..).mpr ⟨rfl, hc₃⟩

/-- A number at the cursor, and what it means. -/
theorem number_of_reads {v : Value} (h : Reads (number c) v rest) :
    ∃ t n, NumberText t n ∧ n.Means v ∧ c.rest = t ++ rest := by
  obtain ⟨n, d, hn, h⟩ := Reads.of_bind h
  obtain ⟨t, isNumber, hc⟩ := numeral_of_reads hn
  dsimp only at h
  split at h
  · next value hvalue =>
    obtain ⟨rfl, rfl⟩ := (Reads.ok_iff ..).mp h
    exact ⟨t, n, isNumber, (n.value?_eq_some_iff _).mp hvalue, hc⟩
  · exact absurd h (Reads.not_error _ _ _ _)

theorem reads_of_number {n : Numeral} {v : Value} (h : NumberText t n) (means : n.Means v)
    (hc : c.rest = t ++ rest) (hrest : Stops rest) : Reads (number c) v rest := by
  refine (reads_of_numeral h hc hrest).bind fun d hd => ?_
  simp only [(n.value?_eq_some_iff _).mpr means]
  exact (Reads.ok_iff ..).mpr ⟨rfl, hd⟩

end NativeBuild.Json
