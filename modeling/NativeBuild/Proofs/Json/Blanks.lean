import Mathlib.Data.List.TakeWhile
import NativeBuild.Proofs.Json.Strings

/-!
# Blanks at the end of a JSON text

Blanks behind a text change nothing of what is read from it. Two cursors are compared of which
one has more blanks at its end: every part of the reader accepts at both or at neither, gives
the same value, and leaves cursors that differ in such blanks alone. The fuel may differ too, as
long as there is enough of it for the text of each cursor.
-/
namespace NativeBuild.Json

/-- The bytes that may stand between the parts of a text. -/
def isBlank (b : UInt8) : Bool := b == 0x20 || b == 0x09 || b == 0x0A || b == 0x0D

theorem isBlank_iff {b : UInt8} :
    isBlank b = true ↔ b = 0x20 ∨ b = 0x09 ∨ b = 0x0A ∨ b = 0x0D := by
  simp [isBlank, or_assoc]

/-- A byte that is no blank is not among the blanks behind a text. -/
theorem append_blanks_eq {t w u v : Text} {b : UInt8} (hw : ∀ x ∈ w, isBlank x = true)
    (hb : isBlank b = false) (h : t ++ w = u ++ b :: v) : ∃ rest, t = u ++ b :: rest := by
  have hnot : b ∉ w := fun hmem => by simp [hw b hmem] at hb
  rcases List.append_eq_append_iff.1 h with ⟨x, -, hx⟩ | ⟨x, ht, hx⟩
  · exact absurd (hx ▸ by simp) hnot
  · cases x with
    | nil =>
      have hw' : w = b :: v := by simpa using hx.symm
      exact absurd (by simp [hw']) hnot
    | cons y rest =>
      obtain ⟨rfl, -⟩ := List.cons.inj hx
      exact ⟨rest, ht⟩

theorem isPrefixOf_append_blanks {word t w : Text} (hword : ∀ b ∈ word, isBlank b = false)
    (hw : ∀ b ∈ w, isBlank b = true) : word.isPrefixOf (t ++ w) = word.isPrefixOf t := by
  rw [Bool.eq_iff_iff, List.isPrefixOf_iff_prefix, List.isPrefixOf_iff_prefix]
  refine ⟨fun ⟨x, hx⟩ => ?_, fun h => h.trans (List.prefix_append t w)⟩
  rcases List.append_eq_append_iff.1 hx with ⟨y, ht, -⟩ | ⟨y, hy, hyx⟩
  · exact ⟨y, ht.symm⟩
  · cases y with
    | nil => simp [hy]
    | cons b y =>
      have hblank := hw b (by simp [hyx])
      simp [hword b (by simp [hy])] at hblank

theorem rest_blanksFrom (line column : Nat) (t : Text) :
    (blanksFrom line column t).rest = t.dropWhile isBlank := by
  induction t generalizing line column with
  | nil => rfl
  | cons b t ih =>
    simp only [blanksFrom]
    split
    · next hb => simp [hb, isBlank, ih]
    · split
      · next hb => rcases hb with hb | hb | hb <;> simp [hb, isBlank, ih]
      · next hline hb => simp_all [isBlank]

namespace Cursor

theorem rest_skipBlanks (c : Cursor) : c.skipBlanks.rest = c.rest.dropWhile isBlank :=
  rest_blanksFrom c.line c.column c.rest

@[simp] theorem rest_advance (n : Nat) (c : Cursor) : (c.advance n).rest = c.rest.drop n := rfl

/-- Behind the text of `c` there are only blanks left at `d`. -/
def Padded (c d : Cursor) : Prop := ∃ w : Text, (∀ b ∈ w, isBlank b = true) ∧ d.rest = c.rest ++ w

variable {c d : Cursor}

theorem Padded.advance (h : Padded c d) {n : Nat} (hn : n ≤ c.rest.length) :
    Padded (c.advance n) (d.advance n) := by
  obtain ⟨w, hw, hd⟩ := h
  exact ⟨w, hw, by simp [hd, List.drop_append_of_le_length hn]⟩

theorem Padded.startsWith (h : Padded c d) {b : UInt8} (hb : isBlank b = false) :
    d.startsWith b = c.startsWith b := by
  obtain ⟨w, hw, hd⟩ := h
  cases hc : c.rest with
  | cons x t => simp [Cursor.startsWith, hd, hc]
  | nil =>
    cases w with
    | nil => simp [Cursor.startsWith, hd, hc]
    | cons x t =>
      have hx : x ≠ b := by
        rintro rfl
        have := hw x (by simp)
        simp [hb] at this
      simpa [Cursor.startsWith, hd, hc] using hx

theorem pos_of_startsWith {b : UInt8} (h : c.startsWith b = true) : 1 ≤ c.rest.length := by
  cases hc : c.rest with
  | nil => simp [Cursor.startsWith, hc] at h
  | cons x t => simp

theorem pos_of_startsWith_or {a b : UInt8} (h : (c.startsWith a || c.startsWith b) = true) :
    1 ≤ c.rest.length := by
  rcases Bool.or_eq_true_iff.1 h with h | h <;> exact pos_of_startsWith h

/-- One byte at the front of both texts is passed. -/
theorem Padded.next (h : Padded c d) {b : UInt8} (hb : isBlank b = false)
    (hc : c.startsWith b = true) :
    Padded (c.advance 1) (d.advance 1) ∧ (c.advance 1).rest.length < c.rest.length ∧
      (d.advance 1).rest.length < d.rest.length := by
  have hcpos := pos_of_startsWith hc
  have hdpos := pos_of_startsWith (h.startsWith hb ▸ hc)
  refine ⟨h.advance hcpos, ?_, ?_⟩ <;> rw [rest_advance, List.length_drop] <;> omega

/-- A byte that may be there is skipped at both cursors or at neither. -/
theorem Padded.skipIf (h : Padded c d) {x : Bool} (hx : x = true → 1 ≤ c.rest.length) :
    Padded (if x then c.advance 1 else c) (if x then d.advance 1 else d) ∧
      (if x then c.advance 1 else c).rest.length ≤ c.rest.length ∧
      (if x then d.advance 1 else d).rest.length ≤ d.rest.length := by
  cases x with
  | false => exact ⟨h, Nat.le_refl _, Nat.le_refl _⟩
  | true => exact ⟨h.advance (hx rfl), by simp, by simp⟩

/-- Both cursors reach the end of their texts together, or the same byte. -/
theorem Padded.skipBlanks_cases (h : Padded c d) :
    (c.skipBlanks.rest = [] ∧ d.skipBlanks.rest = []) ∨
      ∃ b t w, c.skipBlanks.rest = b :: t ∧ d.skipBlanks.rest = b :: (t ++ w) ∧
        ∀ x ∈ w, isBlank x = true := by
  obtain ⟨w, hw, hd⟩ := h
  rw [rest_skipBlanks, rest_skipBlanks, hd, List.dropWhile_append]
  cases hc : c.rest.dropWhile isBlank with
  | nil =>
    left
    simpa [List.dropWhile_eq_nil_iff] using hw
  | cons b t =>
    right
    exact ⟨b, t, w, rfl, by simp, hw⟩

theorem Padded.skipBlanks (h : Padded c d) : Padded c.skipBlanks d.skipBlanks := by
  rcases h.skipBlanks_cases with ⟨hc, hd⟩ | ⟨b, t, w, hc, hd, hw⟩
  · exact ⟨[], by simp, by simp only [hc, hd, List.append_nil]⟩
  · exact ⟨w, hw, by simp only [hc, hd, List.cons_append]⟩

theorem length_skipBlanks_le (c : Cursor) : c.skipBlanks.rest.length ≤ c.rest.length := by
  rw [rest_skipBlanks]
  exact (List.dropWhile_suffix isBlank).length_le

end Cursor

open Cursor (Padded)

/-- Both reads fail, or they give one value and stop at cursors that differ in blanks alone,
without going back behind `c` and `d`. -/
def Alike {α : Type} (c d : Cursor) (r r' : Except Error (α × Cursor)) : Prop :=
  match r, r' with
  | .ok (a, c₁), .ok (a', d₁) =>
    a = a' ∧ Padded c₁ d₁ ∧ c₁.rest.length ≤ c.rest.length ∧ d₁.rest.length ≤ d.rest.length
  | .error _, .error _ => True
  | _, _ => False

namespace Alike

variable {α β : Type} {c d : Cursor}

theorem bind {r r' : Except Error (α × Cursor)} {k k' : α × Cursor → Except Error (β × Cursor)}
    (h : Alike c d r r')
    (hk : ∀ a c₁ d₁, Padded c₁ d₁ → c₁.rest.length ≤ c.rest.length →
      d₁.rest.length ≤ d.rest.length →
      Alike c d (k (a, c₁)) (k' (a, d₁))) :
    Alike c d (r >>= k) (r' >>= k') := by
  match r, r', h with
  | .ok (a, c₁), .ok (_, d₁), ⟨rfl, hp, hc, hd⟩ => exact hk a c₁ d₁ hp hc hd
  | .error _, .error _, _ => exact trivial

/-- A read from cursors further on is a read from the cursors before them. -/
theorem widen {c₁ d₁ : Cursor} {r r' : Except Error (α × Cursor)} (h : Alike c₁ d₁ r r')
    (hc : c₁.rest.length ≤ c.rest.length) (hd : d₁.rest.length ≤ d.rest.length) :
    Alike c d r r' := by
  match r, r', h with
  | .ok _, .ok _, ⟨ha, hp, hc', hd'⟩ => exact ⟨ha, hp, Nat.le_trans hc' hc, Nat.le_trans hd' hd⟩
  | .error _, .error _, _ => exact trivial

/-- What is made of two reads that are alike is the same, if it does not depend on the blanks. -/
theorem toOption_bind {r r' : Except Error (α × Cursor)} {k k' : α × Cursor → Except Error β}
    (h : Alike c d r r')
    (hk : ∀ a c₁ d₁, Padded c₁ d₁ → (k (a, c₁)).toOption = (k' (a, d₁)).toOption) :
    (r >>= k).toOption = (r' >>= k').toOption := by
  match r, r', h with
  | .ok (a, c₁), .ok (_, d₁), ⟨rfl, hp, _, _⟩ => exact hk a c₁ d₁ hp
  | .error _, .error _, _ => rfl

theorem ite {p : Prop} [Decidable p] {r₁ r₂ r₁' r₂' : Except Error (α × Cursor)}
    (h₁ : p → Alike c d r₁ r₁') (h₂ : ¬p → Alike c d r₂ r₂') :
    Alike c d (if p then r₁ else r₂) (if p then r₁' else r₂') := by
  split
  · next hp => exact h₁ hp
  · next hp => exact h₂ hp

/-- A container ends at a closing byte, and goes on otherwise. -/
theorem closing {c₁ d₁ : Cursor} (h : Padded c₁ d₁) (hc : c₁.rest.length ≤ c.rest.length)
    (hd : d₁.rest.length ≤ d.rest.length) {close : UInt8} (hclose : isBlank close = false) (a : α)
    {more more' : Except Error (α × Cursor)} (hmore : Alike c d more more') :
    Alike c d (if c₁.startsWith close then pure (a, c₁.advance 1) else more)
      (if d₁.startsWith close then pure (a, d₁.advance 1) else more') := by
  rw [h.startsWith hclose]
  refine .ite (fun hend => ?_) fun _ => hmore
  obtain ⟨h₂, hc₂, hd₂⟩ := h.next hclose hend
  exact ⟨rfl, h₂, by omega, by omega⟩

end Alike

section Scalars

variable {c d : Cursor}

theorem alike_string (h : Padded c d) (hc : c.startsWith (byte '"') = true) :
    Alike c d (string c) (string d) := by
  obtain ⟨w, hw, hd⟩ := h
  obtain ⟨t, ht⟩ : ∃ t, c.rest = byte '"' :: t := by
    cases hrest : c.rest with
    | nil => simp [Cursor.startsWith, hrest] at hc
    | cons b t => exact ⟨t, by simpa [Cursor.startsWith, hrest] using hc⟩
  cases hs : string c with
  | ok read =>
    obtain ⟨value, c₁⟩ := read
    obtain ⟨written, body, rfl⟩ := body_of_string ht hs
    have hrest : d.rest = byte '"' :: (written ++ byte '"' :: (c₁.rest ++ w)) := by simp [hd, ht]
    rw [string_of_body body hrest]
    refine ⟨rfl, ⟨w, hw, rfl⟩, ?_, ?_⟩
    · simp [ht]; omega
    · simp [hd, ht]; omega
  | error e =>
    cases hsd : string d with
    | error e' => exact trivial
    | ok read =>
      exfalso
      obtain ⟨value, d₁⟩ := read
      obtain ⟨written, body, hbody⟩ :=
        body_of_string (b := byte '"') (t := t ++ w) (by simp [hd, ht]) hsd
      -- The closing quote is no blank, so it stands in the text that both cursors share.
      obtain ⟨rest, rfl⟩ := append_blanks_eq hw (by decide) hbody
      rw [string_of_body body ht] at hs
      cases hs

theorem takeWhile_isDigit_append_blanks {w : Text} (hw : ∀ b ∈ w, isBlank b = true) (t : Text) :
    (t ++ w).takeWhile Text.isDigit = t.takeWhile Text.isDigit := by
  have hnil : w.takeWhile Text.isDigit = [] := by
    cases w with
    | nil => rfl
    | cons b w =>
      have hb := hw b (by simp)
      simp only [isBlank, Bool.or_eq_true, beq_iff_eq] at hb
      rcases hb with ((rfl | rfl) | rfl) | rfl <;> rfl
  rw [List.takeWhile_append, hnil]
  split
  · next h => simpa using ((List.takeWhile_prefix Text.isDigit).eq_of_length h).symm
  · rfl

/-- Both cursors stand before the same digits, none or some. -/
theorem digits_cases (h : Padded c d) :
    (∃ c₁ d₁, digits c = ([], c₁) ∧ digits d = ([], d₁)) ∨
      ∃ b run c₁ d₁, digits c = (b :: run, c₁) ∧ digits d = (b :: run, d₁) ∧ Padded c₁ d₁ ∧
        c₁.rest.length ≤ c.rest.length ∧ d₁.rest.length ≤ d.rest.length := by
  obtain ⟨w, hw, hd⟩ := h
  have hrun : d.rest.takeWhile Text.isDigit = c.rest.takeWhile Text.isDigit := by
    rw [hd, takeWhile_isDigit_append_blanks hw]
  have hle := (List.takeWhile_prefix Text.isDigit (l := c.rest)).length_le
  have hpad := Cursor.Padded.advance ⟨w, hw, hd⟩ hle
  simp only [digits, hrun]
  cases hr : c.rest.takeWhile Text.isDigit with
  | nil => exact .inl ⟨_, _, rfl, rfl⟩
  | cons b run => exact .inr ⟨b, run, _, _, rfl, rfl, hr ▸ hpad, by simp, by simp⟩

theorem alike_wholePart (h : Padded c d) : Alike c d (wholePart c) (wholePart d) := by
  simp only [wholePart, h.startsWith (show isBlank (byte '0') = false by decide)]
  split
  · next hc => exact ⟨rfl, h.advance (Cursor.pos_of_startsWith hc), by simp, by simp⟩
  · rcases digits_cases h with ⟨c₁, d₁, hc, hd⟩ | ⟨b, run, c₁, d₁, hc, hd, hpad, hle, hle'⟩
    · simp only [hc, hd]
      exact trivial
    · simp only [hc, hd]
      exact ⟨rfl, hpad, hle, hle'⟩

theorem alike_fractionPart (h : Padded c d) : Alike c d (fractionPart c) (fractionPart d) := by
  simp only [fractionPart, h.startsWith (show isBlank (byte '.') = false by decide)]
  split
  · next hc =>
    rcases digits_cases (h.advance (Cursor.pos_of_startsWith hc)) with
      ⟨c₁, d₁, hc, hd⟩ | ⟨b, run, c₁, d₁, hc, hd, hpad, hle, hle'⟩
    · simp only [hc, hd]
      exact trivial
    · simp only [hc, hd]
      exact ⟨rfl, hpad, hle.trans (by simp), hle'.trans (by simp)⟩
  · exact ⟨rfl, h, le_rfl, le_rfl⟩

theorem alike_exponentPart (h : Padded c d) : Alike c d (exponentPart c) (exponentPart d) := by
  simp only [exponentPart, h.startsWith (show isBlank (byte 'e') = false by decide),
    h.startsWith (show isBlank (byte 'E') = false by decide)]
  split
  · next hc =>
    have hadv := h.advance (Cursor.pos_of_startsWith_or hc)
    obtain ⟨hsign, hlec, hled⟩ := 
      hadv.skipIf (Cursor.pos_of_startsWith_or (a := byte '-') (b := byte '+'))
    simp only [hadv.startsWith (show isBlank (byte '-') = false by decide),
      hadv.startsWith (show isBlank (byte '+') = false by decide)]
    rcases digits_cases hsign with
      ⟨c₁, d₁, hc, hd⟩ | ⟨b, run, c₁, d₁, hc, hd, hpad, hle, hle'⟩
    · simp only [hc, hd]
      exact trivial
    · simp only [hc, hd]
      exact ⟨rfl, hpad, (hle.trans hlec).trans (by simp), (hle'.trans hled).trans (by simp)⟩
  · exact ⟨rfl, h, le_rfl, le_rfl⟩

theorem alike_numeral (h : Padded c d) : Alike c d (numeral c) (numeral d) := by
  simp only [numeral, h.startsWith (show isBlank (byte '-') = false by decide)]
  obtain ⟨hsign, hlec, hled⟩ := h.skipIf (Cursor.pos_of_startsWith (b := byte '-'))
  refine ((alike_wholePart hsign).widen hlec hled).bind fun whole c₁ d₁ h₁ hc₁ hd₁ => ?_
  refine ((alike_fractionPart h₁).widen hc₁ hd₁).bind fun fraction c₂ d₂ h₂ hc₂ hd₂ => ?_
  refine ((alike_exponentPart h₂).widen hc₂ hd₂).bind fun exponent c₃ d₃ h₃ hc₃ hd₃ => ?_
  exact ⟨rfl, h₃, hc₃, hd₃⟩

theorem alike_number (h : Padded c d) : Alike c d (number c) (number d) := by
  simp only [number]
  refine (alike_numeral h).bind fun n c₁ d₁ h₁ hc₁ hd₁ => ?_
  cases n.value? with
  | none => exact trivial
  | some v => exact ⟨rfl, h₁, hc₁, hd₁⟩

/-- A word without blanks is there at both cursors or at neither. -/
theorem alike_literal (h : Padded c d) {word : Text} (hword : ∀ b ∈ word, isBlank b = false)
    (v : Value) : Alike c d (literal word v c) (literal word v d) := by
  obtain ⟨w, hw, hd⟩ := h
  simp only [literal, hd, isPrefixOf_append_blanks hword hw]
  split
  · next hc =>
    have hle := (List.isPrefixOf_iff_prefix.1 hc).length_le
    exact ⟨rfl, Cursor.Padded.advance ⟨w, hw, hd⟩ hle, by simp, by simp [hd]⟩
  · exact trivial

end Scalars

/-- With any fuel that suffices, values, members and items are read alike. Items take a step more
than the value that they start with. -/
structure AlikeAt (fuel fuel' : ℕ) : Prop where
  value : ∀ depth c d, Padded c d → 2 * c.rest.length < fuel → 2 * d.rest.length < fuel' →
    Alike c d (value fuel depth c) (value fuel' depth d)
  members : ∀ depth found c d, Padded c d → 2 * c.rest.length < fuel → 2 * d.rest.length < fuel' →
    Alike c d (members fuel depth found c) (members fuel' depth found d)
  items : ∀ depth found c d, Padded c d → 2 * c.rest.length + 1 < fuel →
    2 * d.rest.length + 1 < fuel' → Alike c d (items fuel depth found c) (items fuel' depth found d)

namespace AlikeAt

variable {fuel fuel' : ℕ} {c d : Cursor}

theorem value_succ (ih : AlikeAt fuel fuel') (depth : ℕ) (h : Padded c d)
    (hc : 2 * c.rest.length < fuel + 1) (hd : 2 * d.rest.length < fuel' + 1) :
    Alike c d (Json.value (fuel + 1) depth c) (Json.value (fuel' + 1) depth d) := by
  have hpad := h.skipBlanks
  have hcs := Cursor.length_skipBlanks_le c
  have hds := Cursor.length_skipBlanks_le d
  rw [Json.value, Json.value]
  rcases h.skipBlanks_cases with ⟨hcnil, hdnil⟩ | ⟨b, t, w, hcons, hdcons, hw⟩
  · simp only [hcnil, hdnil]
    exact trivial
  have hstart : ∀ {x : UInt8}, b = x → c.skipBlanks.startsWith x = true := by
    rintro x rfl
    simp only [Cursor.startsWith, hcons, List.head?_cons, beq_self_eq_true]
  simp only [hcons, hdcons]
  refine .ite (fun hb => .ite (fun _ => trivial) fun _ => ?_) fun _ => ?_
  · obtain ⟨h₁, hc₁, hd₁⟩ := hpad.next (by decide) (hstart hb)
    have hc₂ := Cursor.length_skipBlanks_le (c.skipBlanks.advance 1)
    have hd₂ := Cursor.length_skipBlanks_le (d.skipBlanks.advance 1)
    refine .closing h₁.skipBlanks (by omega) (by omega) (by decide) _ ?_
    exact (ih.members _ _ _ _ h₁.skipBlanks (by omega) (by omega)).widen (by omega) (by omega)
  refine .ite (fun hb => .ite (fun _ => trivial) fun _ => ?_) fun _ => ?_
  · obtain ⟨h₁, hc₁, hd₁⟩ := hpad.next (by decide) (hstart hb)
    have hc₂ := Cursor.length_skipBlanks_le (c.skipBlanks.advance 1)
    have hd₂ := Cursor.length_skipBlanks_le (d.skipBlanks.advance 1)
    refine .closing h₁.skipBlanks (by omega) (by omega) (by decide) _ ?_
    exact (ih.items _ _ _ _ h₁.skipBlanks (by omega) (by omega)).widen (by omega) (by omega)
  refine .ite (fun hb => ?_) fun _ => ?_
  · refine ((alike_string hpad (hstart hb)).widen hcs hds).bind fun t c₁ d₁ h₁ hc₁ hd₁ => ?_
    exact ⟨rfl, h₁, hc₁, hd₁⟩
  refine .ite (fun _ => ?_) fun _ => ?_
  · exact (alike_literal hpad (by decide +kernel) _).widen hcs hds
  refine .ite (fun _ => ?_) fun _ => ?_
  · exact (alike_literal hpad (by decide +kernel) _).widen hcs hds
  refine .ite (fun _ => ?_) fun _ => ?_
  · exact (alike_literal hpad (by decide +kernel) _).widen hcs hds
  refine .ite (fun _ => ?_) fun _ => trivial
  exact (alike_number hpad).widen hcs hds

theorem members_succ (ih : AlikeAt fuel fuel') (depth : ℕ) (found : Dictionary Value)
    (h : Padded c d) (hc : 2 * c.rest.length < fuel + 1) (hd : 2 * d.rest.length < fuel' + 1) :
    Alike c d (Json.members (fuel + 1) depth found c) (Json.members (fuel' + 1) depth found d) := by
  have hcs := Cursor.length_skipBlanks_le c
  have hds := Cursor.length_skipBlanks_le d
  rw [Json.members, Json.members]
  dsimp only
  rw [h.skipBlanks.startsWith (by decide)]
  refine .ite (fun _ => trivial) fun hquote => ?_
  have hkey := alike_string h.skipBlanks (by simpa using hquote)
  refine (hkey.widen hcs hds).bind fun key c₁ d₁ h₁ hc₁ hd₁ => ?_
  have hcs₁ := Cursor.length_skipBlanks_le c₁
  have hds₁ := Cursor.length_skipBlanks_le d₁
  dsimp only
  rw [h₁.skipBlanks.startsWith (by decide)]
  refine .ite (fun _ => trivial) fun hcolon => ?_
  obtain ⟨h₂, hc₂, hd₂⟩ := h₁.skipBlanks.next (b := byte ':') (by decide) (by simpa using hcolon)
  have hvalue := ih.value depth _ _ h₂ (by omega) (by omega)
  refine (hvalue.widen (by omega) (by omega)).bind fun v c₃ d₃ h₃ hc₃ hd₃ => ?_
  have hcs₃ := Cursor.length_skipBlanks_le c₃
  have hds₃ := Cursor.length_skipBlanks_le d₃
  dsimp only
  rw [h₃.skipBlanks.startsWith (b := byte ',') (by decide)]
  refine .ite (fun hcomma => ?_) fun _ => ?_
  · obtain ⟨h₄, hc₄, hd₄⟩ := h₃.skipBlanks.next (by decide) hcomma
    exact (ih.members _ _ _ _ h₄ (by omega) (by omega)).widen (by omega) (by omega)
  · exact .closing h₃.skipBlanks (by omega) (by omega) (by decide) _ trivial

theorem items_succ (ih : AlikeAt fuel fuel') (depth : ℕ) (found : List Value) (h : Padded c d)
    (hc : 2 * c.rest.length + 1 < fuel + 1) (hd : 2 * d.rest.length + 1 < fuel' + 1) :
    Alike c d (Json.items (fuel + 1) depth found c) (Json.items (fuel' + 1) depth found d) := by
  rw [Json.items, Json.items]
  have hvalue := ih.value depth _ _ h (by omega) (by omega)
  refine hvalue.bind fun v c₁ d₁ h₁ hc₁ hd₁ => ?_
  have hcs₁ := Cursor.length_skipBlanks_le c₁
  have hds₁ := Cursor.length_skipBlanks_le d₁
  dsimp only
  rw [h₁.skipBlanks.startsWith (b := byte ',') (by decide)]
  refine .ite (fun hcomma => ?_) fun _ => ?_
  · obtain ⟨h₂, hc₂, hd₂⟩ := h₁.skipBlanks.next (by decide) hcomma
    exact (ih.items _ _ _ _ h₂ (by omega) (by omega)).widen (by omega) (by omega)
  · exact .closing h₁.skipBlanks (by omega) (by omega) (by decide) _ trivial

end AlikeAt

theorem alikeAt (fuel fuel' : ℕ) : AlikeAt fuel fuel' := by
  induction fuel generalizing fuel' with
  | zero => exact ⟨by omega, by omega, by omega⟩
  | succ fuel ih =>
    cases fuel' with
    | zero => exact ⟨by omega, by omega, by omega⟩
    | succ fuel' =>
      exact {
        value := fun depth c d h hc hd => (ih fuel').value_succ depth h hc hd
        members := fun depth found c d h hc hd => (ih fuel').members_succ depth found h hc hd
        items := fun depth found c d h hc hd => (ih fuel').items_succ depth found h hc hd }

/-- Blanks behind a text make no difference to whether it is accepted, nor to its value. -/
theorem toOption_parse_append_blanks {w : Text} (hw : ∀ b ∈ w, isBlank b = true) (t : Text) :
    (parse (t ++ w)).toOption = (parse t).toOption := by
  have hpad : Padded (Cursor.start t) (Cursor.start (t ++ w)) := ⟨w, hw, rfl⟩
  have hread := (alikeAt (2 * t.length + 1) (2 * (t ++ w).length + 1)).value 0 _ _ hpad
    (Nat.lt_succ_self _) (Nat.lt_succ_self _)
  refine (hread.toOption_bind fun v c d h => ?_).symm
  rcases h.skipBlanks_cases with ⟨hc, hd⟩ | ⟨b, t, w, hc, hd, -⟩
  · simp [hc, hd]
  · simp only [hc, hd, List.isEmpty_cons, Bool.false_eq_true, if_false]
    rfl

end NativeBuild.Json
