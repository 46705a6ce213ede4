import Mathlib.Data.FinEnum
import Mathlib.Tactic.SplitIfs
import NativeBuild.Proofs.Json.Strings

/-!
# The characters of a string

A string is a row of characters, each written as its byte or as an escape. An escape stands for a
byte that has a short name, or for a character by its UTF-16 units: one unit that is a character
itself, or a high and a low surrogate. What a character means is its UTF-8 encoding. The bodies that
the reader accepts are exactly these rows.
-/
namespace NativeBuild.Json

/-- A hexadecimal digit of either case and its value. -/
def HexDigit (b : UInt8) (n : ℕ) : Prop :=
  (utf8 "0123456789abcdef")[n]? = some b ∨ (utf8 "0123456789ABCDEF")[n]? = some b

instance (b : UInt8) (n : ℕ) : Decidable (HexDigit b n) := inferInstanceAs (Decidable (_ ∨ _))

/-- Four hexadecimal digits and the number that they write. -/
inductive HexUnit : Text → ℕ → Prop where
  | mk {a b c d : UInt8} {k l m n : ℕ} (first : HexDigit a k) (second : HexDigit b l)
      (third : HexDigit c m) (fourth : HexDigit d n) :
      HexUnit [a, b, c, d] (((k * 16 + l) * 16 + m) * 16 + n)

/-- The letters behind a backslash, and the bytes that they name. -/
def shortEscapes : List (UInt8 × UInt8) :=
  [(byte '"', byte '"'), (byte '\\', byte '\\'), (byte '/', byte '/'), (byte 'b', 0x08),
    (byte 'f', 0x0C), (byte 'n', 0x0A), (byte 'r', 0x0D), (byte 't', 0x09)]

/-- A character as it is written in a string, and the bytes that it means. -/
inductive Character : Text → Text → Prop where
  | plain {b : UInt8} (notControl : 0x20 ≤ b) (notQuote : b ≠ byte '"')
      (notEscape : b ≠ byte '\\') : Character [b] [b]
  | short {e x : UInt8} (named : (e, x) ∈ shortEscapes) : Character [byte '\\', e] [x]
  | unit {digits : Text} (c : Char) (unit : HexUnit digits c.toNat) :
      Character (utf8 "\\u" ++ digits) (String.utf8EncodeChar c)
  | pair {first second : Text} {high low : ℕ} (c : Char) (highUnit : HexUnit first high)
      (isHigh : 0xD800 ≤ high ∧ high ≤ 0xDBFF) (lowUnit : HexUnit second low)
      (isLow : 0xDC00 ≤ low ∧ low ≤ 0xDFFF)
      (value : c.toNat = 0x10000 + (high - 0xD800) * 0x400 + (low - 0xDC00)) :
      Character (utf8 "\\u" ++ first ++ utf8 "\\u" ++ second) (String.utf8EncodeChar c)

/-- Characters in a row. -/
inductive Characters : Text → Text → Prop where
  | nil : Characters [] []
  | cons {written meant more moreMeant : Text} (character : Character written meant)
      (characters : Characters more moreMeant) : Characters (written ++ more) (meant ++ moreMeant)

theorem hexDigit_lt {b : UInt8} {n : ℕ} (h : HexDigit b n) : n < 16 := by
  obtain h | h := h
  · exact (List.getElem?_eq_some_iff.mp h).1
  · exact (List.getElem?_eq_some_iff.mp h).1

/-- A row of digits of which the first is a zero, the next a one, and so on. -/
theorem hexValue?_of_row {row : Text} (h : row.map Text.hexValue? = (List.range 16).map some)
    {b : UInt8} {n : ℕ} (hb : row[n]? = some b) : Text.hexValue? b = some n := by
  have hlt : n < 16 := by
    have hlength := congrArg List.length h
    have hbound := (List.getElem?_eq_some_iff.mp hb).1
    simp only [List.length_map, List.length_range] at hlength
    omega
  have hn := congrArg (fun values => values[n]?) h
  simpa [List.getElem?_map, hb, hlt] using hn

theorem hexValue?_eq_some_iff (b : UInt8) (n : ℕ) :
    Text.hexValue? b = some n ↔ HexDigit b n := by
  constructor
  · have hall : ∀ b : UInt8, ∀ n ∈ Text.hexValue? b, HexDigit b n := by decide +kernel
    exact hall b n
  · rintro (hlower | hupper)
    · exact hexValue?_of_row (by decide) hlower
    · exact hexValue?_of_row (by decide) hupper

theorem unit?_eq_some_iff (a b c d : UInt8) (u : ℕ) :
    unit? a b c d = some u ↔ HexUnit [a, b, c, d] u := by
  constructor
  · intro h
    simp only [unit?, Option.bind_eq_bind, Option.bind_eq_some_iff, hexValue?_eq_some_iff] at h
    obtain ⟨k, hk, l, hl, m, hm, n, hn, hu⟩ := h
    obtain rfl := Option.some.inj hu
    exact .mk hk hl hm hn
  · rintro ⟨hk, hl, hm, hn⟩
    rw [← hexValue?_eq_some_iff] at hk hl hm hn
    simp [unit?, hk, hl, hm, hn]

theorem HexUnit.lt {digits : Text} {u : ℕ} (h : HexUnit digits u) : u < 0x10000 := by
  obtain ⟨hk, hl, hm, hn⟩ := h
  have hk := hexDigit_lt hk
  have hl := hexDigit_lt hl
  have hm := hexDigit_lt hm
  have hn := hexDigit_lt hn
  omega

theorem shortEscape?_eq_some_iff (e x : UInt8) :
    shortEscape? e = some x ↔ (e, x) ∈ shortEscapes := by
  constructor
  · intro h
    unfold shortEscape? at h
    split_ifs at h with hself hb hf hn hr ht
    · obtain rfl := Option.some.inj h
      obtain rfl | rfl | rfl := hself <;> decide
    all_goals
      obtain rfl := Option.some.inj h
      subst e
      decide
  · intro h
    have hall : shortEscapes.all (fun entry => shortEscape? entry.1 == some entry.2) = true := rfl
    exact eq_of_beq (List.all_eq_true.mp hall (e, x) h)

/-- A code point is written as the UTF-8 encoding of its character. -/
theorem ofCodePoint_toNat (c : Char) : Text.ofCodePoint c.toNat = String.utf8EncodeChar c := by
  have hlt : c.val.toNat < 0x110000 := by
    obtain h | h := c.valid
    · exact Nat.lt_trans h (by decide)
    · exact h.2
  simp only [Text.ofCodePoint, String.utf8EncodeChar, Char.toNat]
  generalize c.val.toNat = n at hlt ⊢
  by_cases h1 : n < 0x80
  · rw [if_pos h1, if_pos (by omega)]
  rw [if_neg h1, if_neg (by omega : ¬n ≤ 127)]
  by_cases h2 : n < 0x800
  · rw [if_pos h2, if_pos (by omega), Nat.mod_eq_of_lt (by omega : n / 64 < 32)]
    rw [Nat.add_comm 0xC0, Nat.add_comm 0x80]
  rw [if_neg h2, if_neg (by omega : ¬n ≤ 2047)]
  by_cases h3 : n < 0x10000
  · rw [if_pos h3, if_pos (by omega), Nat.mod_eq_of_lt (by omega : n / 4096 < 16)]
    simp only [Nat.add_comm 0xE0, Nat.add_comm 0x80]
  rw [if_neg h3, if_neg (by omega : ¬n ≤ 65535), Nat.mod_eq_of_lt (by omega : n / 262144 < 8)]
  simp only [Nat.add_comm 0xF0, Nat.add_comm 0x80]

/-- A byte below 0x80 is the encoding of the character with its number. -/
theorem exists_char_of_lt {b : UInt8} (hb : b < 0x80) :
    ∃ c : Char, c.toNat = b.toNat ∧ String.utf8EncodeChar c = [b] := by
  have hlt : b.toNat < 0x80 := UInt8.lt_iff_toNat_lt.mp hb
  let c : Char := Char.ofNatAux b.toNat (.inl (by omega))
  have hc : c.toNat = b.toNat := rfl
  refine ⟨c, hc, ?_⟩
  rw [← ofCodePoint_toNat, hc, Text.ofCodePoint, if_pos hlt]
  simp

section Surrogates

variable {u : ℕ}

theorem isHighSurrogate_iff : isHighSurrogate u = true ↔ 0xD800 ≤ u ∧ u ≤ 0xDBFF := by
  simp [isHighSurrogate]

theorem isLowSurrogate_iff : isLowSurrogate u = true ↔ 0xDC00 ≤ u ∧ u ≤ 0xDFFF := by
  simp [isLowSurrogate]

/-- What is no surrogate and no more than the last code point is a character. -/
theorem exists_char (hlt : u < 0x110000) (hhigh : isHighSurrogate u = false)
    (hlow : isLowSurrogate u = false) : ∃ c : Char, c.toNat = u := by
  have hvalid : u.isValidChar := by
    have h1 : ¬(0xD800 ≤ u ∧ u ≤ 0xDBFF) := by simp [← isHighSurrogate_iff, hhigh]
    have h2 : ¬(0xDC00 ≤ u ∧ u ≤ 0xDFFF) := by simp [← isLowSurrogate_iff, hlow]
    unfold Nat.isValidChar
    omega
  exact ⟨Char.ofNatAux u hvalid, rfl⟩

theorem isSurrogate_toNat (c : Char) :
    isHighSurrogate c.toNat = false ∧ isLowSurrogate c.toNat = false := by
  have hvalid : c.toNat < 0xD800 ∨ 0xDFFF < c.toNat ∧ c.toNat < 0x110000 := c.valid
  rw [← Bool.not_eq_true, ← Bool.not_eq_true, isHighSurrogate_iff, isLowSurrogate_iff]
  omega

end Surrogates

theorem characters_of_body {written meant : Text} (body : Body written meant) :
    Characters written meant := by
  induction body with
  | empty => exact .nil
  | plain notQuote notControl notEscape _ ih =>
    exact .cons (.plain (UInt8.not_lt.mp notControl) notQuote notEscape) ih
  | short escape _ ih => exact .cons (.short ((shortEscape?_eq_some_iff _ _).mp escape)) ih
  | unit digits notHigh notLow _ ih =>
    have hunit := (unit?_eq_some_iff _ _ _ _ _).mp digits
    have hlt := hunit.lt
    obtain ⟨c, rfl⟩ := exists_char (by omega) notHigh notLow
    rw [ofCodePoint_toNat]
    exact .cons (.unit c hunit) ih
  | @pair _ _ _ _ _ _ _ _ u v _ _ first high second low _ ih =>
    have hu := isHighSurrogate_iff.mp high
    have hv := isLowSurrogate_iff.mp low
    obtain ⟨c, hc⟩ : ∃ c : Char, c.toNat = pairValue u v := by
      have hsize : 0x10000 ≤ pairValue u v ∧ pairValue u v < 0x110000 := by
        unfold pairValue
        omega
      refine exists_char hsize.2 ?_ ?_
      · simp [isHighSurrogate]
        omega
      · simp [isLowSurrogate]
        omega
    rw [← hc, ofCodePoint_toNat]
    exact .cons (.pair c ((unit?_eq_some_iff _ _ _ _ _).mp first) hu
      ((unit?_eq_some_iff _ _ _ _ _).mp second) hv hc) ih

theorem body_append {written meant more moreMeant : Text} (character : Character written meant)
    (body : Body more moreMeant) : Body (written ++ more) (meant ++ moreMeant) := by
  cases character with
  | plain notControl notQuote notEscape =>
    exact .plain notQuote (UInt8.not_lt.mpr notControl) notEscape body
  | short named => exact .short ((shortEscape?_eq_some_iff _ _).mpr named) body
  | unit c unit =>
    obtain ⟨notHigh, notLow⟩ := isSurrogate_toNat c
    rw [← ofCodePoint_toNat]
    generalize c.toNat = u at *
    cases unit with
    | mk first second third fourth =>
      exact .unit ((unit?_eq_some_iff _ _ _ _ _).mpr (.mk first second third fourth))
        notHigh notLow body
  | pair c highUnit isHigh lowUnit isLow value =>
    rw [← ofCodePoint_toNat, value]
    cases highUnit with
    | mk h1 h2 h3 h4 =>
      cases lowUnit with
      | mk l1 l2 l3 l4 =>
        exact .pair ((unit?_eq_some_iff _ _ _ _ _).mpr (.mk h1 h2 h3 h4))
          (isHighSurrogate_iff.mpr isHigh) ((unit?_eq_some_iff _ _ _ _ _).mpr (.mk l1 l2 l3 l4))
          (isLowSurrogate_iff.mpr isLow) body

/-- The bodies that the reader takes are the rows of characters. -/
theorem body_iff_characters (written meant : Text) :
    Body written meant ↔ Characters written meant := by
  refine ⟨characters_of_body, fun characters => ?_⟩
  induction characters with
  | nil => exact .empty
  | cons character _ ih => exact body_append character ih

end NativeBuild.Json
