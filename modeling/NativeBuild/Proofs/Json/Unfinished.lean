import NativeBuild.Proofs.Binary64
import NativeBuild.Proofs.Json.Position

/-!
# Strings and numbers that go on

Where a string or a number is refused, what has been read of it is the beginning of one that is
accepted. A string can be ended behind every byte that it may hold, and an escape behind every part
of it. Any digits are those of a number in range; it is only behind the sign of an exponent that a
number may be out of range whatever digits follow.
-/
namespace NativeBuild.Json

/-- A number ends with the sign of its exponent, and it is out of range whatever digits follow. -/
def OutOfReach (t : Text) : Prop :=
  ∃ before number sign, t = before ++ (number ++ [sign]) ∧ (sign = byte '+' ∨ sign = byte '-') ∧
    ∀ digits, Digits digits → ∃ n, NumberText (number ++ sign :: digits) n ∧ n.value? = none

/-- What is said of the text before an error: it goes on to one that satisfies `G`, but for the
depth and the range of numbers. -/
inductive Begins (G : Text → Prop) : Cause → Text → Prop where
  | more {cause : Cause} {t : Text} (u : Text) (good : G (t ++ u)) : Begins G cause t
  | tooDeep {t : Text} : Begins G .tooDeep t
  | outOfRange {t : Text} : Begins G .outOfRange t
  | outOfReach {t : Text} (h : OutOfReach t) : Begins G .expectedExponent t

variable {G G' : Text → Prop} {cause : Cause} {s t : Text} {c d : Cursor}

theorem OutOfReach.append (h : OutOfReach t) (s : Text) : OutOfReach (s ++ t) := by
  obtain ⟨before, number, sign, rfl, hnumber⟩ := h
  exact ⟨s ++ before, number, sign, (List.append_assoc ..).symm, hnumber⟩

/-- A part that is begun begins the whole in which it stands. -/
theorem Begins.append (h : Begins G cause t) (hG : ∀ u, G u → ∃ more, G' (s ++ u ++ more)) :
    Begins G' cause (s ++ t) := by
  cases h with
  | more u good =>
    obtain ⟨more, hmore⟩ := hG _ good
    exact .more (u ++ more) (by simpa using hmore)
  | tooDeep => exact .tooDeep
  | outOfRange => exact .outOfRange
  | outOfReach h => exact .outOfReach (h.append s)

theorem Begins.imp (h : Begins G cause t) (hG : ∀ u, G u → G' u) : Begins G' cause t :=
  h.append (s := []) fun u hu => ⟨[], by simpa using hG u hu⟩

theorem Begins.elim (h : Begins G cause t) (hdepth : cause ≠ .tooDeep)
    (hrange : cause ≠ .outOfRange) :
    (∃ u, G (t ++ u)) ∨ cause = .expectedExponent ∧ OutOfReach t := by
  cases h with
  | more u good => exact .inl ⟨u, good⟩
  | tooDeep => exact absurd rfl hdepth
  | outOfRange => exact absurd rfl hrange
  | outOfReach h => exact .inr ⟨rfl, h⟩

section Strings

/-- What stands behind the opening quote of a string. -/
def IsBody (t : Text) : Prop := ∃ written meant, Body written meant ∧ t = written ++ [byte '"']

def IsQuoted (t : Text) : Prop :=
  ∃ written meant, Characters written meant ∧ t = byte '"' :: (written ++ [byte '"'])

/-- Neither digits nor letters of an escape are line feeds. -/
theorem hexValue?_lineFeed : Text.hexValue? 0x0A = none := by decide

theorem shortEscape?_lineFeed : shortEscape? 0x0A = none := by decide

theorem lineFeed_notMem_unit {a b c d : UInt8} {u : ℕ} (h : unit? a b c d = some u) :
    0x0A ∉ [a, b, c, d] := by
  have hdigit {b : UInt8} {n : ℕ} (hb : HexDigit b n) : (0x0A : UInt8) ≠ b := by
    rintro rfl
    have hvalue := (hexValue?_eq_some_iff _ _).mpr hb
    rw [hexValue?_lineFeed] at hvalue
    cases hvalue
  obtain ⟨ha, hb, hc, hd⟩ := (unit?_eq_some_iff a b c d u).mp h
  simp [hdigit ha, hdigit hb, hdigit hc, hdigit hd]

theorem Body.lineFeed_notMem {written meant : Text} (h : Body written meant) :
    0x0A ∉ written := by
  have hescape : (0x0A : UInt8) ≠ byte '\\' ∧ (0x0A : UInt8) ≠ byte 'u' := by decide
  induction h with
  | empty => exact List.not_mem_nil
  | @plain b _ _ _ notControl _ _ ih =>
    have hb : (0x0A : UInt8) ≠ b := by
      rintro rfl
      exact notControl (by decide)
    simp [hb, ih]
  | @short e _ _ _ escape _ ih =>
    have he : (0x0A : UInt8) ≠ e := by
      rintro rfl
      rw [shortEscape?_lineFeed] at escape
      cases escape
    simp [hescape, he, ih]
  | unit digits _ _ _ ih =>
    have hunit := lineFeed_notMem_unit digits
    simp only [List.mem_cons, not_or] at hunit ⊢
    simp [hescape, hunit, ih]
  | pair first _ second _ _ ih =>
    have hfirst := lineFeed_notMem_unit first
    have hsecond := lineFeed_notMem_unit second
    simp only [List.mem_cons, not_or] at hfirst hsecond ⊢
    simp [hescape, hfirst, hsecond, ih]

namespace Scans

variable {line column : ℕ} {r : Except Error (Text × Cursor)}

/-- Behind a body, a string goes on as it would begin. -/
theorem of_body {piece meant more : Text} (h : Body piece meant)
    (hr : Scans (Begins IsBody) ⟨more, line, column + piece.length⟩ r) :
    Scans (Begins IsBody) ⟨piece ++ more, line, column⟩ r := by
  refine .of_takes (Cursor.takes_line h.lineFeed_notMem more line column) (hr.mono ?_)
  intro cause s hs
  refine hs.append ?_
  rintro _ ⟨written, meant, body, rfl⟩
  exact ⟨[], _, _, h.append body, by simp⟩

/-- An error in a body that could go on in another way. -/
theorem of_unfinished {more : Text} (seen passed rest : Text) (h : IsBody (seen ++ more))
    (hpasses : cause.Passes passed) : Scans (Begins IsBody) ⟨seen ++ (passed ++ rest), line, column⟩
      (.error ⟨cause, line, column + (seen.length + passed.length)⟩ :
        Except Error (Text × Cursor)) := by
  refine .fail_line (.more more h) hpasses fun hmem => ?_
  obtain ⟨written, meant, body, heq⟩ := h
  have hall : 0x0A ∈ written ++ [byte '"'] := heq ▸ List.mem_append_left more hmem
  obtain hbody | hquote := List.mem_append.mp hall
  · exact body.lineFeed_notMem hbody
  · exact absurd (List.mem_singleton.mp hquote) (by decide)

end Scans

theorem isBody_nil : IsBody ([] ++ [byte '"']) := ⟨[], [], .empty, rfl⟩

theorem isBody_escape : IsBody ([byte '\\'] ++ [byte '"', byte '"']) :=
  ⟨[byte '\\', byte '"'], _, .short (by rfl) .empty, rfl⟩

/-- Four zeros are a unit that is no surrogate. -/
theorem isBody_unit : IsBody ([byte '\\', byte 'u'] ++
    [byte '0', byte '0', byte '0', byte '0', byte '"']) :=
  ⟨_, _, .unit (u := 0) (by decide) rfl rfl .empty, rfl⟩

/-- The lowest of the low surrogates goes with any high one. -/
theorem isBody_high {a b c d : UInt8} {u : ℕ} (first : unit? a b c d = some u)
    (high : isHighSurrogate u = true) :
    IsBody ([byte '\\', byte 'u', a, b, c, d, byte '\\', byte 'u'] ++
      [byte 'd', byte 'c', byte '0', byte '0', byte '"']) :=
  ⟨_, _, .pair first high (v := 0xDC00) (by decide) rfl .empty, rfl⟩

theorem scans_stringFrom (line column : ℕ) (out t : Text) :
    Scans (Begins IsBody) ⟨t, line, column⟩ (stringFrom line column out t) := by
  fun_induction stringFrom line column out t with
  | case1 => exact .of_unfinished [] [] [] isBody_nil rfl
  | case2 column out rest =>
    exact .ok _ (Cursor.takes_line (t := [byte '"']) (by decide) rest line column)
  | case3 column out b rest _ control =>
    exact .of_unfinished [] [b] rest isBody_nil ⟨b, control, rfl⟩
  | case4 column out b rest notQuote notControl notEscape ih =>
    exact .of_body (.plain notQuote notControl notEscape .empty) ih
  | case5 column out b _ _ isEscape =>
    obtain rfl := not_ne_iff.mp isEscape
    exact .of_unfinished [byte '\\'] [] [] isBody_escape rfl
  | case6 column out b _ _ isEscape e rest x escape ih =>
    obtain rfl := not_ne_iff.mp isEscape
    exact .of_body (.short escape .empty) ih
  | case7 column out b _ _ isEscape e rest =>
    obtain rfl := not_ne_iff.mp isEscape
    exact .of_unfinished [byte '\\'] [e] rest isBody_escape rfl
  | case8 column out b _ _ isEscape k _ isUnit h₁ h₂ h₃ h₄ rest =>
    obtain rfl := not_ne_iff.mp isEscape
    obtain rfl := not_ne_iff.mp isUnit
    exact .of_unfinished [byte '\\', byte 'u'] [] _ isBody_unit rfl
  | case9 column out b _ _ isEscape k _ isUnit h₁ h₂ h₃ h₄ u first high =>
    obtain rfl := not_ne_iff.mp isEscape
    obtain rfl := not_ne_iff.mp isUnit
    exact .of_unfinished [byte '\\', byte 'u', h₁, h₂, h₃, h₄, byte '\\', byte 'u'] [] _
      (isBody_high first high) (.inl rfl)
  | case10 column out b _ _ isEscape k _ isUnit h₁ h₂ h₃ h₄ u first high l₁ l₂ l₃ l₄ rest v second
      low ih =>
    obtain rfl := not_ne_iff.mp isEscape
    obtain rfl := not_ne_iff.mp isUnit
    exact .of_body (.pair first high second low .empty) ih
  | case11 column out b _ _ isEscape k _ isUnit h₁ h₂ h₃ h₄ u first high l₁ l₂ l₃ l₄ rest v
      second =>
    obtain rfl := not_ne_iff.mp isEscape
    obtain rfl := not_ne_iff.mp isUnit
    exact .of_unfinished [byte '\\', byte 'u', h₁, h₂, h₃, h₄, byte '\\', byte 'u']
      [l₁, l₂, l₃, l₄] rest (isBody_high first high) (.inr ⟨v, (unit?_eq_some_iff ..).mp second⟩)
  | case12 column out b _ _ isEscape k _ isUnit h₁ h₂ h₃ h₄ u first high rest =>
    obtain rfl := not_ne_iff.mp isEscape
    obtain rfl := not_ne_iff.mp isUnit
    exact .of_unfinished [byte '\\', byte 'u', h₁, h₂, h₃, h₄, byte '\\', byte 'u'] [] rest
      (isBody_high first high) (.inl rfl)
  | case13 column out b _ _ isEscape k _ isUnit h₁ h₂ h₃ h₄ rest u first high =>
    obtain rfl := not_ne_iff.mp isEscape
    obtain rfl := not_ne_iff.mp isUnit
    exact .of_unfinished [byte '\\', byte 'u', h₁, h₂, h₃, h₄] [] rest
      (isBody_high first high) (.inl rfl)
  | case14 column out b _ _ isEscape k _ isUnit h₁ h₂ h₃ h₄ rest u digits =>
    obtain rfl := not_ne_iff.mp isEscape
    obtain rfl := not_ne_iff.mp isUnit
    exact .of_unfinished [byte '\\', byte 'u'] [h₁, h₂, h₃, h₄] rest isBody_unit
      (.inr ⟨u, (unit?_eq_some_iff ..).mp digits⟩)
  | case15 column out b _ _ isEscape k _ isUnit h₁ h₂ h₃ h₄ rest u digits notHigh notLow ih =>
    obtain rfl := not_ne_iff.mp isEscape
    obtain rfl := not_ne_iff.mp isUnit
    exact .of_body (.unit digits (by simpa using notHigh) (by simpa using notLow) .empty) ih
  | case16 column out b _ _ isEscape k rest _ isUnit =>
    obtain rfl := not_ne_iff.mp isEscape
    obtain rfl := not_ne_iff.mp isUnit
    exact .of_unfinished [byte '\\', byte 'u'] [] rest isBody_unit rfl

theorem scans_string (h : c.startsWith (byte '"') = true) :
    Scans (Begins IsQuoted) c (string c) := by
  refine .of_takes (Cursor.takes_of_startsWith h (by decide))
    ((scans_stringFrom c.line (c.column + 1) [] (c.rest.drop 1)).mono ?_)
  intro cause s hs
  refine hs.append ?_
  rintro _ ⟨written, meant, body, rfl⟩
  exact ⟨[], written, meant, (body_iff_characters ..).mp body, by simp⟩

end Strings

section Numbers

variable {w : Text} {f : Option Text}

/-- A number that is in range. -/
def IsInRange (t : Text) : Prop := ∃ n v, NumberText t n ∧ n.Means v

theorem lineFeed_notMem_digits {run : Text} (h : ∀ b ∈ run, Text.isDigit b = true) :
    0x0A ∉ run := by
  intro hmem
  exact absurd (h _ hmem) (by decide)

theorem takes_of_digits {run : Text} (h : digits c = (run, d)) : c.Takes run d := by
  obtain ⟨rfl, rfl⟩ := Prod.mk.inj h
  have hrun : 0x0A ∉ c.rest.takeWhile Text.isDigit :=
    lineFeed_notMem_digits fun b hb => List.mem_takeWhile_imp hb
  exact Cursor.takes_advance hrun List.takeWhile_append_dropWhile.symm

theorem scans_wholePart (c : Cursor) : Scans (fun _ s => s = []) c (wholePart c) := by
  unfold wholePart
  split
  · next hzero => exact .ok _ (Cursor.takes_of_startsWith hzero (by decide))
  · split
    · exact .fail rfl rfl
    · exact .ok _ (takes_of_digits rfl)

theorem scans_fractionPart (c : Cursor) :
    Scans (fun _ s => s = [byte '.']) c (fractionPart c) := by
  unfold fractionPart
  split
  · next hpoint =>
    refine .of_takes (Cursor.takes_of_startsWith hpoint (by decide)) ?_
    dsimp only
    split
    · exact .fail rfl rfl
    · next hdigits => exact .ok _ (takes_of_digits hdigits)
  · exact .ok _ (.refl c)

theorem takes_exponentSign (c : Cursor) : ∃ sign, ExponentSign sign (c.startsWith (byte '-')) ∧
    c.Takes sign (exponentDigits c) := by
  obtain ⟨sign, signed, hc⟩ := exponentSign c
  obtain ⟨t, ht⟩ : ∃ t, c.Takes t (exponentDigits c) := by
    unfold exponentDigits
    split
    · next hsign =>
      obtain ⟨b, -, htake⟩ := Cursor.takes_of_startsWith_or hsign (by decide) (by decide)
      exact ⟨[b], htake⟩
    · exact ⟨[], .refl c⟩
  obtain rfl := ht.text_eq hc
  exact ⟨t, signed, ht⟩

/-- The digits of an exponent can be missing behind the letter or behind the sign. -/
theorem scans_exponentPart (c : Cursor) : Scans (fun cause s => cause = .expectedExponent ∧
    ∃ letter sign negative, (letter = byte 'e' ∨ letter = byte 'E') ∧ ExponentSign sign negative ∧
      s = letter :: sign) c (exponentPart c) := by
  rw [exponentPart_eq]
  split
  · next hletter =>
    obtain ⟨letter, either, htake⟩ := Cursor.takes_of_startsWith_or hletter (by decide) (by decide)
    obtain ⟨sign, signed, hsign⟩ := takes_exponentSign (c.advance 1)
    refine .of_takes (htake.trans hsign) ?_
    split
    · exact .fail ⟨rfl, letter, sign, _, either, signed, by simp⟩ rfl
    · next hdigits => exact .ok _ (takes_of_digits hdigits)
  · exact .ok _ (.refl c)

/-- Any digits are those of a number in range, whose exponent is to be found. -/
theorem isInRange_exponent {fractionText : Text} {letter : UInt8} (negative : Bool)
    (isWhole : Whole w) (isFraction : Fraction fractionText f)
    (either : letter = byte 'e' ∨ letter = byte 'E') : ∃ more, IsInRange
      ((if negative then [byte '-'] else []) ++ w ++ fractionText ++ letter :: more) := by
  obtain ⟨exponent, x, hx⟩ :=
    Binary64.exists_ofDecimal? negative (Text.digitsValue (w ++ f.getD []))
  have isExponent := exponent_ofInt either (exponent + (f.getD []).length)
  refine ⟨_, _, _, .mk isWhole isFraction isExponent, .real (x := x) ?_ ?_⟩
  · rintro ⟨hplain, -⟩
    simp at hplain
  · simpa using hx

theorem whole_zero : Whole [byte '0'] :=
  ⟨⟨List.cons_ne_nil _ _, List.forall_mem_singleton.mpr rfl⟩, fun _ => rfl⟩

/-- Behind the sign of an exponent, a number goes on in range or is out of reach. -/
theorem begins_signed {number : Text} {sign : UInt8} (either : sign = byte '+' ∨ sign = byte '-')
    (h : ∀ digits, Digits digits → ∃ n, NumberText (number ++ sign :: digits) n) :
    Begins IsInRange .expectedExponent (number ++ [sign]) := by
  by_cases hrange : ∃ more, IsInRange (number ++ [sign] ++ more)
  · obtain ⟨more, hmore⟩ := hrange
    exact .more more hmore
  · refine .outOfReach ⟨[], number, sign, rfl, either, fun digits hdigits => ?_⟩
    obtain ⟨n, hn⟩ := h digits hdigits
    refine ⟨n, hn, Option.eq_none_iff_forall_ne_some.mpr fun v hv => hrange ?_⟩
    exact ⟨digits, n, v, by simpa using hn, (n.value?_eq_some_iff v).mp hv⟩

theorem begins_exponent {fractionText sign : Text} {letter : UInt8} {minus : Bool}
    (negative : Bool) (isWhole : Whole w) (isFraction : Fraction fractionText f)
    (either : letter = byte 'e' ∨ letter = byte 'E') (signed : ExponentSign sign minus) :
    Begins IsInRange .expectedExponent
      ((if negative then [byte '-'] else []) ++ w ++ fractionText ++ letter :: sign) := by
  have hdigits (digits : Text) (h : Digits digits) : ∃ n, NumberText ((if negative then [byte '-']
      else []) ++ w ++ fractionText ++ letter :: (sign ++ digits)) n :=
    ⟨_, .mk isWhole isFraction (.present either signed h)⟩
  cases signed with
  | absent =>
    obtain ⟨more, hmore⟩ := isInRange_exponent negative isWhole isFraction either
    exact .more _ (by simpa using hmore)
  | plus =>
    rw [List.append_cons]
    exact begins_signed (.inl rfl) fun digits h => by simpa using hdigits digits h
  | minus =>
    rw [List.append_cons]
    exact begins_signed (.inr rfl) fun digits h => by simpa using hdigits digits h

theorem scans_numeral (c : Cursor) : Scans (Begins IsInRange) c (numeral c) := by
  have hsign : c.Takes (if c.startsWith (byte '-') then [byte '-'] else [])
      (if c.startsWith (byte '-') then c.advance 1 else c) := by
    split
    · next hminus => exact Cursor.takes_of_startsWith hminus (by decide)
    · exact .refl c
  refine .of_takes hsign ?_
  unfold numeral
  dsimp only
  generalize c.startsWith (byte '-') = negative
  refine (scans_wholePart _).bind ?_ fun w d _ hw htake => ?_
  · rintro cause _ rfl
    obtain ⟨more, hmore⟩ := isInRange_exponent negative whole_zero .absent (.inl rfl)
    exact .more _ (by simpa using hmore)
  obtain ⟨isWhole, hrest⟩ := whole_of_reads ⟨d, hw, rfl⟩
  obtain rfl := htake.text_eq hrest
  refine (scans_fractionPart d).bind ?_ fun f d _ hf htake => ?_
  · rintro cause _ rfl
    obtain ⟨more, hmore⟩ :=
      isInRange_exponent negative isWhole (.present whole_zero.digits) (.inl rfl)
    exact .more _ (by simpa using hmore)
  obtain ⟨fractionText, isFraction, hrest⟩ := fraction_of_reads ⟨d, hf, rfl⟩
  obtain rfl := htake.text_eq hrest
  refine (scans_exponentPart d).bind ?_ fun x d _ hx htake => ?_
  · rintro cause _ ⟨rfl, letter, sign, minus, either, signed, rfl⟩
    simpa using begins_exponent negative isWhole isFraction either signed
  exact .ok _ (.refl d)

theorem scans_number (c : Cursor) : Scans (Begins IsInRange) c (number c) := by
  refine (scans_numeral c).bind (fun _ _ h => h) fun n d t hn htake => ?_
  dsimp only
  split
  · exact .ok _ (.refl d)
  · exact .fail .outOfRange rfl

end Numbers

end NativeBuild.Json
