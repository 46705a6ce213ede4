import NativeBuild.Proofs.Json.Acceptance

/-!
# One reading for each text

The reader is a function and it takes all that the grammar writes, so a text has at most one
meaning. More is true of everything but numbers: what stands behind the last byte of a string, a
word or a container has no influence on it. So no text that is accepted goes on to another one, save
for blanks, unless it is a number.
-/
namespace NativeBuild.Json

variable {left : ℕ} {t u x y : Text} {v w : Value}

/-- Two values that start at the same byte end at the same byte, and mean the same. -/
theorem Denotes.eq_of_append_eq (hleft : left ≤ maxDepth) (ht : Denotes left t v)
    (hu : Denotes left u w) (hx : ∀ n, NumberText t n → Stops x)
    (hy : ∀ n, NumberText u n → Stops y) (h : t ++ x = u ++ y) : t = u ∧ v = w := by
  have hdepth : maxDepth - left + left = maxDepth := Nat.sub_add_cancel hleft
  have hskip : (Cursor.start (t ++ x)).skipBlanks.rest = t ++ x := by
    obtain ⟨b, inner, rfl, hb, -⟩ := ht.head
    exact skipBlanks_eq .nil hb rfl
  -- Both are read from one cursor with one fuel.
  have hreader := completeAt (2 * (t ++ x).length)
  have htlength : 2 * t.length ≤ 2 * (t ++ x).length := by
    rw [List.length_append]
    omega
  have hulength : 2 * u.length ≤ 2 * (t ++ x).length := by
    rw [h, List.length_append]
    omega
  obtain ⟨c, hc, hcx⟩ := hreader.value hdepth ht hskip hx htlength
  obtain ⟨d, hd, hdy⟩ := hreader.value hdepth hu (hskip.trans h) hy hulength
  obtain ⟨rfl, rfl⟩ := Prod.mk.inj (Except.ok.inj (hc.symm.trans hd))
  rw [← hcx, ← hdy] at h
  exact ⟨List.append_cancel_right h, rfl⟩

theorem Denotes.unique (hleft : left ≤ maxDepth) (hv : Denotes left t v) (hw : Denotes left t w) :
    v = w :=
  (hv.eq_of_append_eq hleft hw (fun _ _ => .of_blanks .nil) (fun _ _ => .of_blanks .nil) rfl).2

/-- A value is a string exactly when it is written between quotes. -/
theorem Denotes.eq_string_iff (hleft : left ≤ maxDepth) (h : Denotes left t v) (meant : Text) :
    v = .string meant ↔
      ∃ written, Characters written meant ∧ t = byte '"' :: (written ++ [byte '"']) := by
  constructor
  · rintro rfl
    cases h with
    | string characters => exact ⟨_, characters, rfl⟩
    | number _ means => cases means
  · rintro ⟨written, characters, rfl⟩
    exact h.unique hleft (.string characters)

/-- A value is an integer exactly when it is written as a number that is one. -/
theorem Denotes.eq_integer_iff (hleft : left ≤ maxDepth) (h : Denotes left t v) (i : ℤ) :
    v = .integer i ↔ ∃ n, NumberText t n ∧ n.IsInteger ∧ n.signed = i := by
  constructor
  · rintro rfl
    cases h with
    | number isNumber means =>
      cases means with
      | integer isInteger => exact ⟨_, isNumber, isInteger, rfl⟩
  · rintro ⟨n, isNumber, isInteger, rfl⟩
    exact h.unique hleft (.number isNumber (.integer isInteger))

/-- What starts like a number is one. -/
theorem Denotes.real?_ne_none (h : Denotes left t v) {b : UInt8} (hhead : t.head? = some b)
    (hb : b = byte '-' ∨ Text.isDigit b = true) : v.real? ≠ none := by
  cases h with
  | number _ means => cases means <;> simp [Value.real?]
  | null | yes | no | string | emptyArray | array | emptyObject | object =>
    obtain rfl := Option.some.inj hhead
    exact absurd hb (by decide)

theorem Denotes.not_numberText (h : Denotes left t v) (hv : v.real? = none)
    (hhead : u.head? = t.head?) (n : Numeral) : ¬NumberText u n := by
  intro isNumber
  obtain ⟨b, rest, rfl, hb⟩ := isNumber.head
  exact h.real?_ne_none hhead.symm hb hv

/-- A text that is accepted and goes on to another one, which is no number: all that is added is
blank, and both mean the same. -/
theorem parse_eq_of_prefix {p r : Text} (hr : parse r = .ok v) (hv : v.real? = none) (h : p <+: r)
    (hp : parse p = .ok w) : w = v ∧ ∃ blanks, Blank blanks ∧ r = p ++ blanks := by
  obtain ⟨before, text, after, hbefore, hafter, rfl, hden⟩ := denotes_of_parse hr
  obtain ⟨before', text', after', hbefore', hafter', rfl, hden'⟩ := denotes_of_parse hp
  obtain ⟨more, hmore⟩ := h
  simp only [List.append_assoc] at hmore
  obtain ⟨b, inner, htext, hb, -⟩ := hden.head
  obtain ⟨b', inner', htext', hb', -⟩ := hden'.head
  have hstart : text' ++ (after' ++ more) = text ++ after := by
    have hdrop := congrArg (List.dropWhile isBlank) hmore
    rw [hbefore'.dropWhile, hbefore.dropWhile, htext, htext'] at hdrop
    simpa [hb, hb', htext, htext'] using hdrop
  have hhead : text'.head? = text.head? := by
    have hheads := congrArg List.head? hstart
    simpa [htext, htext'] using hheads
  have hnumber := hden.not_numberText hv hhead
  have hnumber' := hden.not_numberText hv rfl
  obtain ⟨rfl, rfl⟩ := hden'.eq_of_append_eq le_rfl hden
    (fun n isNumber => absurd isNumber (hnumber n))
    (fun n isNumber => absurd isNumber (hnumber' n)) hstart
  obtain rfl := List.append_cancel_left hstart
  obtain rfl := List.append_cancel_right hmore
  exact ⟨rfl, more, fun a ha => hafter a (List.mem_append_right _ ha), by simp⟩

end NativeBuild.Json
