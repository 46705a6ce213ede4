import NativeBuild.Log.Record
import NativeBuild.Proofs.Decimal
import NativeBuild.Proofs.Json.Acceptance

/-!
# Records as JSON

What is written for a record is an object of the grammar whose four members are the record's parts,
and no line feed stands in it, whatever bytes the module and the message hold.
-/
namespace NativeBuild.Log

open Json

section Escapes

theorem hexDigit_spec : ∀ n < 16, HexDigit (Text.hexDigit n) n := by decide

/-- Four hexadecimal digits write every number of sixteen bits. -/
theorem hexUnit_hex {n : ℕ} (h : n < 0x10000) : HexUnit (Text.hex 4 n) n := by
  have hdigit : ∀ m, HexDigit (Text.hexDigit (m % 16)) (m % 16) := fun m =>
    hexDigit_spec (m % 16) (Nat.mod_lt m (by decide))
  have hunit := HexUnit.mk (hdigit (n / 16 / 16 / 16)) (hdigit (n / 16 / 16)) (hdigit (n / 16))
    (hdigit n)
  have hvalue : ((n / 16 / 16 / 16 % 16 * 16 + n / 16 / 16 % 16) * 16 + n / 16 % 16) * 16 + n % 16 =
      n := by omega
  rw [hvalue] at hunit
  exact hunit

/-- The control bytes are the characters below the space. -/
theorem character_control {b : UInt8} (h : b < 0x20) :
    Character (utf8 "\\u" ++ Text.hex 4 b.toNat) [b] := by
  obtain ⟨c, hc, hmeant⟩ := exists_char_of_lt (UInt8.lt_trans h (by decide))
  have hlt : b.toNat < 0x20 := UInt8.lt_iff_toNat_lt.mp h
  rw [← hmeant, ← hc]
  exact .unit c (hexUnit_hex (by omega))

theorem character_escapeByte (b : UInt8) : Character (escapeByte b) [b] := by
  unfold escapeByte
  split_ifs with hquote hescape hline hreturn htab hcontrol
  · subst hquote
    exact .short (by decide)
  · subst hescape
    exact .short (by decide)
  · subst hline
    exact .short (by decide)
  · subst hreturn
    exact .short (by decide)
  · subst htab
    exact .short (by decide)
  · exact character_control hcontrol
  · exact .plain (UInt8.not_lt.mp hcontrol) hquote hescape

/-- A text that was escaped is read as the text. -/
theorem characters_escape (t : Text) : Characters (t.flatMap escapeByte) t := by
  induction t with
  | nil => exact .nil
  | cons b t ih => exact .cons (character_escapeByte b) ih

theorem lineFeed_not_mem_escapeByte : ∀ b, 0x0A ∉ escapeByte b := by decide +kernel

end Escapes

section Integers

/-- The decimal form of an integer of 64 bits is a number that means it. -/
theorem denotes_ofInt {depth : ℕ} {i : ℤ} (h : -2 ^ 63 ≤ i ∧ i < 2 ^ 63) :
    Denotes depth (Text.ofInt i) (.integer i) :=
  .number (numberText_ofInt i) (Numeral.means_ofInt h)

theorem lineFeed_not_mem_ofInt (i : ℤ) : 0x0A ∉ Text.ofInt i := by
  have hdigits : 0x0A ∉ Text.ofNat i.natAbs := fun h =>
    absurd (Text.isDigit_of_mem_ofNat h) (by decide)
  unfold Text.ofInt
  split
  · exact List.not_mem_cons_of_ne_of_not_mem (by decide) hdigits
  · exact hdigits

end Integers

/-- A member without blanks. -/
def compactMember (key text : Text) (v : Value) (h : Characters key key) : Member :=
  ⟨[], key, key, [], ⟨[], text, [], v, .nil, .nil⟩, .nil, h, .nil⟩

namespace Record

/-- The object that a record is written as: its four parts by increasing key. -/
def object (r : Record) : Value :=
  .object [(utf8 "level", .string r.level.name), (utf8 "module", .string r.module),
    (utf8 "msg", .string r.message), (utf8 "ts", .integer r.time)]

theorem denotes_jsonString {depth : ℕ} (t : Text) : Denotes depth (jsonString t) (.string t) :=
  .string (characters_escape t)

theorem denotes_json (r : Record) (h : -2 ^ 63 ≤ r.time ∧ r.time < 2 ^ 63) :
    Denotes 128 r.json r.object := by
  have hkey : ∀ key : Text, key.flatMap escapeByte = key → Characters key key := by
    intro key hplain
    have hchars := characters_escape key
    rwa [hplain] at hchars
  let members : List Member :=
    [compactMember (utf8 "ts") (Text.ofInt r.time) (.integer r.time) (hkey _ (by decide)),
      compactMember (utf8 "level") (jsonString r.level.name) (.string r.level.name)
        (hkey _ (by decide)),
      compactMember (utf8 "module") (jsonString r.module) (.string r.module) (hkey _ (by decide)),
      compactMember (utf8 "msg") (jsonString r.message) (.string r.message) (hkey _ (by decide))]
  have heach : ∀ m ∈ members, Denotes 127 m.element.text m.element.value := by
    simp only [members, List.forall_mem_cons, List.not_mem_nil, false_implies, implies_true]
    exact ⟨denotes_ofInt h, denotes_jsonString _, denotes_jsonString _, denotes_jsonString _,
      trivial⟩
  have hkeeps := Dictionary.keeps_ofList (members.map Member.entry)
  have hden := Denotes.object (List.cons_ne_nil _ _) heach hkeeps
  have htext : r.json = byte '\x7b' ::
      (separated (members.map Member.written) ++ [byte '\x7d']) := by
    have hts : utf8 "\x7b\"ts\":" =
        byte '\x7b' :: byte '"' :: (utf8 "ts" ++ [byte '"', byte ':']) := rfl
    have hlevel : utf8 ",\"level\":" =
        byte ',' :: byte '"' :: (utf8 "level" ++ [byte '"', byte ':']) := rfl
    have hmodule : utf8 ",\"module\":" =
        byte ',' :: byte '"' :: (utf8 "module" ++ [byte '"', byte ':']) := rfl
    have hmsg : utf8 ",\"msg\":" =
        byte ',' :: byte '"' :: (utf8 "msg" ++ [byte '"', byte ':']) := rfl
    have hend : utf8 "\x7d" = [byte '\x7d'] := rfl
    rw [json, hts, hlevel, hmodule, hmsg, hend]
    simp [members, compactMember, Member.written, Element.written, separated, Text.join,
      List.intercalate]
  rw [htext]
  exact hden

theorem lineFeed_not_mem_jsonString (t : Text) : 0x0A ∉ jsonString t := by
  have hquote : 0x0A ∉ utf8 "\"" := by decide
  simp only [jsonString, List.mem_append, List.mem_flatMap, not_or, not_exists, not_and]
  exact ⟨⟨hquote, fun b _ => lineFeed_not_mem_escapeByte b⟩, hquote⟩

theorem lineFeed_not_mem_json (r : Record) : 0x0A ∉ r.json := by
  have hplain : 0x0A ∉ utf8 "\x7b\"ts\":" ∧ 0x0A ∉ utf8 ",\"level\":" ∧ 0x0A ∉ utf8 ",\"module\":" ∧
      0x0A ∉ utf8 ",\"msg\":" ∧ 0x0A ∉ utf8 "\x7d" := by decide
  obtain ⟨hts, hlevel, hmodule, hmsg, hend⟩ := hplain
  simp only [json, List.mem_append, not_or]
  exact ⟨⟨⟨⟨⟨⟨⟨⟨hts, lineFeed_not_mem_ofInt _⟩, hlevel⟩, lineFeed_not_mem_jsonString _⟩, hmodule⟩,
    lineFeed_not_mem_jsonString _⟩, hmsg⟩, lineFeed_not_mem_jsonString _⟩, hend⟩

/-- What is written for a record is read as its object. -/
theorem parse_json (r : Record) (h : -2 ^ 63 ≤ r.time ∧ r.time < 2 ^ 63) :
    Json.parse r.json = .ok r.object := by
  have hparse := parse_of_denotes .nil .nil (r.denotes_json h)
  rwa [List.nil_append, List.append_nil] at hparse

end Record

end NativeBuild.Log
