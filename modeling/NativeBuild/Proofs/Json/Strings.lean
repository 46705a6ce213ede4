import NativeBuild.Json.Reader

/-!
# What stands between the quotes of a string

`Body written meant` says how the bytes between two quotes are read: a byte for itself, a short
escape, a unit that is no surrogate, or a pair of surrogates. The reader accepts a string exactly
when it starts with such a body and a closing quote, and stops behind that quote.
-/
namespace NativeBuild.Json

/-- The bytes between the quotes of a string, and the bytes that they stand for. -/
inductive Body : Text → Text → Prop where
  | empty : Body [] []
  | plain {b : UInt8} {written meant : Text} (notQuote : b ≠ byte '"') (notControl : ¬b < 0x20)
      (notEscape : b ≠ byte '\\') (more : Body written meant) : Body (b :: written) (b :: meant)
  | short {e x : UInt8} {written meant : Text} (escape : shortEscape? e = some x)
      (more : Body written meant) : Body (byte '\\' :: e :: written) (x :: meant)
  | unit {a b c d : UInt8} {u : Nat} {written meant : Text} (digits : unit? a b c d = some u)
      (notHigh : isHighSurrogate u = false) (notLow : isLowSurrogate u = false)
      (more : Body written meant) :
      Body (byte '\\' :: byte 'u' :: a :: b :: c :: d :: written) (Text.ofCodePoint u ++ meant)
  | pair {a b c d e f g h : UInt8} {u v : Nat} {written meant : Text}
      (first : unit? a b c d = some u) (high : isHighSurrogate u = true)
      (second : unit? e f g h = some v) (low : isLowSurrogate v = true)
      (more : Body written meant) :
      Body (byte '\\' :: byte 'u' :: a :: b :: c :: d
          :: byte '\\' :: byte 'u' :: e :: f :: g :: h :: written)
        (Text.ofCodePoint (pairValue u v) ++ meant)

theorem Body.append {written meant more moreMeant : Text} (h : Body written meant)
    (hmore : Body more moreMeant) : Body (written ++ more) (meant ++ moreMeant) := by
  induction h with
  | empty => exact hmore
  | plain notQuote notControl notEscape _ ih => exact .plain notQuote notControl notEscape ih
  | short escape _ ih => exact .short escape ih
  | unit digits notHigh notLow _ ih =>
    rw [List.append_assoc]
    exact .unit digits notHigh notLow ih
  | pair first high second low _ ih =>
    rw [List.append_assoc]
    exact .pair first high second low ih

theorem byte_quote : byte '"' = 0x22 := rfl

theorem byte_backslash : byte '\\' = 0x5C := rfl

theorem byte_u : byte 'u' = 0x75 := rfl

theorem shortEscape?_u : shortEscape? 0x75 = none := by decide

theorem stringFrom_complete {written meant : Text} (body : Body written meant)
    (line column : Nat) (out rest : Text) :
    stringFrom line column out (written ++ byte '"' :: rest)
      = .ok (out.reverse ++ meant, ⟨rest, line, column + written.length + 1⟩) := by
  induction body generalizing column out with
  | empty =>
    rw [List.nil_append, stringFrom.eq_def]
    simp
  | plain notQuote notControl notEscape _ ih =>
    rw [List.cons_append, stringFrom.eq_def]
    simp [notQuote, notControl, notEscape, ih, Nat.add_assoc, Nat.add_comm 1]
  | short escape _ ih =>
    rw [List.cons_append, stringFrom.eq_def]
    simp only [byte_quote] at ih
    simp [byte_quote, byte_backslash, escape, ih, Nat.add_assoc, Nat.add_comm 2]
  | unit digits notHigh notLow _ ih =>
    rw [List.cons_append, stringFrom.eq_def]
    simp only [byte_quote] at ih
    simp [byte_quote, byte_backslash, byte_u, shortEscape?_u, digits, notHigh, notLow, ih,
      Nat.add_assoc, Nat.add_comm 6]
  | pair first high second low _ ih =>
    rw [List.cons_append, stringFrom.eq_def]
    simp only [byte_quote] at ih
    simp [byte_quote, byte_backslash, byte_u, shortEscape?_u, first, high, second, low, ih,
      Nat.add_assoc, Nat.add_comm 12]

/-- Only five of the reader's cases go on or stop with a string; all others refuse the text. -/
theorem stringFrom_sound {line column : Nat} {out t value : Text} {c : Cursor}
    (h : stringFrom line column out t = .ok (value, c)) :
    ∃ written meant, Body written meant ∧ t = written ++ byte '"' :: c.rest ∧
      value = out.reverse ++ meant := by
  fun_induction stringFrom line column out t with
  | case2 =>
    obtain ⟨rfl, rfl⟩ := Prod.mk.inj (Except.ok.inj h)
    exact ⟨[], [], .empty, rfl, by simp⟩
  | case4 column out b rest notQuote notControl notEscape ih =>
    obtain ⟨written, meant, body, rfl, rfl⟩ := ih h
    exact ⟨b :: written, b :: meant, .plain notQuote notControl notEscape body, rfl, by simp⟩
  | case6 column out b _ _ isEscape e rest x escape ih =>
    obtain rfl : b = byte '\\' := by simpa using isEscape
    obtain ⟨written, meant, body, rfl, rfl⟩ := ih h
    exact ⟨byte '\\' :: e :: written, x :: meant, .short escape body, rfl, by simp⟩
  | case10 column out b _ _ isEscape k _ isUnit h₁ h₂ h₃ h₄ u first high l₁ l₂ l₃ l₄ rest v second
      low ih =>
    obtain rfl : b = byte '\\' := by simpa using isEscape
    obtain rfl : k = byte 'u' := by simpa using isUnit
    obtain ⟨written, meant, body, hrest, hvalue⟩ := ih h
    refine ⟨_, _, .pair first high second low body, ?_, ?_⟩
    · simp [hrest, byte_backslash, byte_u]
    · simp [hvalue]
  | case15 column out b _ _ isEscape k _ isUnit h₁ h₂ h₃ h₄ rest u digits notHigh notLow ih =>
    obtain rfl : b = byte '\\' := by simpa using isEscape
    obtain rfl : k = byte 'u' := by simpa using isUnit
    obtain ⟨written, meant, body, rfl, rfl⟩ := ih h
    exact ⟨_, _, .unit digits (by simpa using notHigh) (by simpa using notLow) body, rfl, by simp⟩
  | case1 | case3 | case5 | case7 | case8 | case9 | case11 | case12 | case13 | case14 | case16 =>
    cases h

/-- A string at the cursor: a quote, a body and a quote. -/
theorem string_of_body {c : Cursor} {written meant rest : Text} (body : Body written meant)
    (h : c.rest = byte '"' :: written ++ byte '"' :: rest) :
    string c = .ok (meant, ⟨rest, c.line, c.column + written.length + 2⟩) := by
  simp [string, Cursor.advance, h, stringFrom_complete body, Nat.add_right_comm c.column 1]

theorem body_of_string {c d : Cursor} {b : UInt8} {t value : Text} (hc : c.rest = b :: t)
    (h : string c = .ok (value, d)) : ∃ written, Body written value ∧
      t = written ++ byte '"' :: d.rest := by
  simp only [string, Cursor.advance, hc, List.drop_succ_cons, List.drop_zero] at h
  obtain ⟨written, meant, body, ht, rfl⟩ := stringFrom_sound h
  exact ⟨written, by simpa using body, ht⟩

end NativeBuild.Json
