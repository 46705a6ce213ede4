import NativeBuild.Proofs.Dictionary
import NativeBuild.Proofs.Json.Characters
import NativeBuild.Proofs.Json.Numbers

/-!
# The grammar of values

`Denotes depth t v` says that `t` is written by the grammar with containers nested at most `depth`
deep, and that it means `v`. Blanks stand around the items of an array and around the keys and the
values of an object, nowhere else.
-/
namespace NativeBuild.Json

/-- Spaces, tabs, line feeds and carriage returns. -/
def Blank (t : Text) : Prop := ∀ b ∈ t, isBlank b = true

/-- A value with the blanks around it. -/
structure Element where
  before : Text
  text : Text
  after : Text
  value : Value
  blankBefore : Blank before
  blankAfter : Blank after

theorem Blank.nil : Blank [] := fun _ h => absurd h List.not_mem_nil

theorem Blank.append {s t : Text} (hs : Blank s) (ht : Blank t) : Blank (s ++ t) := by
  intro b hb
  exact (List.mem_append.mp hb).elim (hs b) (ht b)

namespace Element

def written (e : Element) : Text := e.before ++ e.text ++ e.after

/-- The value with more blanks in front of it and behind it. -/
def between (e : Element) {before after : Text} (hbefore : Blank before) (hafter : Blank after) :
    Element :=
  { e with
    before := before ++ e.before
    after := e.after ++ after
    blankBefore := hbefore.append e.blankBefore
    blankAfter := e.blankAfter.append hafter }

@[simp] theorem written_between (e : Element) {before after : Text} (hbefore : Blank before)
    (hafter : Blank after) : (e.between hbefore hafter).written = before ++ e.written ++ after := by
  simp [between, written]

end Element

/-- A key between blanks, and its value. -/
structure Member where
  before : Text
  key : Text
  meant : Text
  between : Text
  element : Element
  blankBefore : Blank before
  characters : Characters key meant
  blankBetween : Blank between

namespace Member

def written (m : Member) : Text :=
  m.before ++ byte '"' :: (m.key ++ byte '"' :: (m.between ++ byte ':' :: m.element.written))

def entry (m : Member) : Text × Value := (m.meant, m.element.value)

/-- The member with more blanks in front of it and behind it. -/
def within (m : Member) {before after : Text} (hbefore : Blank before) (hafter : Blank after) :
    Member :=
  { m with
    before := before ++ m.before
    element := m.element.between .nil hafter
    blankBefore := hbefore.append m.blankBefore }

@[simp] theorem written_within (m : Member) {before after : Text} (hbefore : Blank before)
    (hafter : Blank after) : (m.within hbefore hafter).written = before ++ m.written ++ after := by
  simp [within, written]

end Member

/-- What stands in a container: its parts with commas between them. -/
def separated (parts : List Text) : Text := Text.join [byte ','] parts

inductive Denotes : ℕ → Text → Value → Prop where
  | null {depth : ℕ} : Denotes depth (utf8 "null") .null
  | yes {depth : ℕ} : Denotes depth (utf8 "true") (.bool true)
  | no {depth : ℕ} : Denotes depth (utf8 "false") (.bool false)
  | number {depth : ℕ} {t : Text} {n : Numeral} {v : Value} (isNumber : NumberText t n)
      (means : n.Means v) : Denotes depth t v
  | string {depth : ℕ} {written meant : Text} (characters : Characters written meant) :
      Denotes depth (byte '"' :: (written ++ [byte '"'])) (.string meant)
  | emptyArray {depth : ℕ} {blanks : Text} (isBlank : Blank blanks) :
      Denotes (depth + 1) (byte '[' :: (blanks ++ [byte ']'])) (.array [])
  | array {depth : ℕ} {items : List Element} (nonempty : items ≠ [])
      (each : ∀ e ∈ items, Denotes depth e.text e.value) :
      Denotes (depth + 1) (byte '[' :: (separated (items.map Element.written) ++ [byte ']']))
        (.array (items.map Element.value))
  | emptyObject {depth : ℕ} {blanks : Text} (isBlank : Blank blanks) :
      Denotes (depth + 1) (byte '\x7b' :: (blanks ++ [byte '\x7d'])) (.object [])
  | object {depth : ℕ} {members : List Member} {found : Dictionary Value} (nonempty : members ≠ [])
      (each : ∀ m ∈ members, Denotes depth m.element.text m.element.value)
      (keeps : found.Keeps (members.map Member.entry)) :
      Denotes (depth + 1)
        (byte '\x7b' :: (separated (members.map Member.written) ++ [byte '\x7d'])) (.object found)

theorem separated_singleton (part : Text) : separated [part] = part := by
  simp [separated, Text.join]

theorem separated_cons (part : Text) {parts : List Text} (h : parts ≠ []) :
    separated (part :: parts) = part ++ byte ',' :: separated parts := by
  obtain ⟨other, more, rfl⟩ := List.exists_cons_of_ne_nil h
  simp [separated, Text.join, List.intercalate]

theorem separated_append (s part : Text) (parts : List Text) :
    separated ((s ++ part) :: parts) = s ++ separated (part :: parts) := by
  by_cases h : parts = []
  · simp [h, separated_singleton]
  · rw [separated_cons _ h, separated_cons _ h, List.append_assoc]

theorem NumberText.head {t : Text} {n : Numeral} (h : NumberText t n) :
    ∃ b rest, t = b :: rest ∧ (b = byte '-' ∨ Text.isDigit b = true) := by
  obtain @⟨negative, w, f, e, _, _, isWhole, isFraction, isExponent⟩ := h
  cases negative with
  | true => exact ⟨_, _, rfl, .inl rfl⟩
  | false =>
    cases w with
    | nil => exact absurd rfl isWhole.digits.nonempty
    | cons b w => exact ⟨_, _, rfl, .inr (isWhole.digits.each b List.mem_cons_self)⟩

/-- Where a number starts, nothing else does. -/
theorem numberStart : ∀ b : UInt8, b = byte '-' ∨ Text.isDigit b = true →
    isBlank b = false ∧ b ≠ byte ']' ∧ b ≠ byte '\x7b' ∧ b ≠ byte '[' ∧ b ≠ byte '"' ∧
      b ≠ byte 't' ∧ b ≠ byte 'f' ∧ b ≠ byte 'n' ∧
        (decide (b = byte '-') || Text.isDigit b) = true := by
  decide +kernel

/-- A value starts with neither a blank nor the end of an array. -/
theorem Denotes.head {depth : ℕ} {t : Text} {v : Value} (h : Denotes depth t v) :
    ∃ b rest, t = b :: rest ∧ isBlank b = false ∧ b ≠ byte ']' := by
  cases h with
  | number isNumber =>
    obtain ⟨b, rest, ht, hb⟩ := isNumber.head
    obtain ⟨hblank, hclose, -⟩ := numberStart b hb
    exact ⟨b, rest, ht, hblank, hclose⟩
  | null | yes | no => exact ⟨_, _, rfl, by decide, by decide⟩
  | string | emptyArray | array | emptyObject | object =>
    exact ⟨_, _, rfl, by decide, by decide⟩

end NativeBuild.Json
