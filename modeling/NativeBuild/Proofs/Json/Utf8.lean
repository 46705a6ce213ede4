import NativeBuild.Proofs.Json.Acceptance

/-!
# Valid texts have valid strings

The reader copies the bytes of a string one by one and puts the encodings of escaped characters
between them. No byte of a longer encoding is ASCII, so a valid text may be cut at each of its ASCII
bytes. All that surrounds a string is ASCII, and so are the escapes in it: what stands between them
are whole characters.
-/
namespace NativeBuild.Json

/-- Whether a text is valid UTF-8: the encoding of some characters, of which none is a surrogate or
greater than U+10FFFF, each in its shortest form. -/
def IsUtf8 (t : Text) : Prop := (List.toByteArray t).IsValidUTF8

theorem isUtf8_iff (t : Text) :
    IsUtf8 t ↔ ∃ characters : List Char, characters.flatMap String.utf8EncodeChar = t := by
  constructor
  · rintro ⟨characters, h⟩
    exact ⟨characters, (List.toByteArray_inj.mp h).symm⟩
  · rintro ⟨characters, rfl⟩
    exact ByteArray.isValidUTF8_utf8Encode

theorem isUtf8_utf8 (s : String) : IsUtf8 (utf8 s) := by
  have h : List.toByteArray (utf8 s) = s.toByteArray := by
    ext1
    rw [List.data_toByteArray, utf8, String.toUTF8_eq_toByteArray]
  rw [IsUtf8, h]
  exact s.isValidUTF8

theorem isUtf8_nil : IsUtf8 [] := isUtf8_utf8 ""

theorem isUtf8_encodeChar (c : Char) : IsUtf8 (String.utf8EncodeChar c) :=
  (isUtf8_iff _).mpr ⟨[c], List.flatMap_singleton _ _⟩

theorem isUtf8_of_lt {b : UInt8} (hb : b < 0x80) : IsUtf8 [b] := by
  obtain ⟨c, -, hc⟩ := exists_char_of_lt hb
  rw [← hc]
  exact isUtf8_encodeChar c

theorem IsUtf8.append {s t : Text} (hs : IsUtf8 s) (ht : IsUtf8 t) : IsUtf8 (s ++ t) := by
  rw [IsUtf8, List.toByteArray_append]
  exact ByteArray.IsValidUTF8.append hs ht

theorem le_ofNat {n : ℕ} (hn : 0x80 ≤ n) (hlt : n < 0x100) : (0x80 : UInt8) ≤ UInt8.ofNat n := by
  rw [UInt8.le_iff_toNat_le, UInt8.toNat_ofNat_of_lt' hlt]
  exact hn

/-- A character is encoded by one byte or by bytes of which none is ASCII. -/
theorem utf8EncodeChar_cases (c : Char) : (∃ b, String.utf8EncodeChar c = [b]) ∨
    ∀ b ∈ String.utf8EncodeChar c, 0x80 ≤ b := by
  simp only [String.utf8EncodeChar]
  split_ifs
  · exact .inl ⟨_, rfl⟩
  all_goals
    right
    simp only [List.mem_cons, List.not_mem_nil, or_false, forall_eq_or_imp, forall_eq]
    and_intros
    all_goals exact le_ofNat (by omega) (by omega)

/-- A valid text may be cut at an ASCII byte. -/
theorem IsUtf8.cut {b : UInt8} (hb : b < 0x80) {s t : Text} (h : IsUtf8 (s ++ b :: t)) :
    IsUtf8 s ∧ IsUtf8 t := by
  rw [isUtf8_iff] at h
  obtain ⟨characters, h⟩ := h
  induction characters generalizing s with
  | nil => simp at h
  | cons c characters ih =>
    rw [List.flatMap_cons, List.append_eq_append_iff] at h
    obtain ⟨more, rfl, hmore⟩ | ⟨rest, hc, hrest⟩ := h
    · -- The byte stands behind the first character.
      obtain ⟨hs, ht⟩ := ih hmore
      exact ⟨(isUtf8_encodeChar c).append hs, ht⟩
    · cases rest with
      | nil =>
        obtain ⟨-, ht⟩ := @ih [] hrest.symm
        rw [List.append_nil] at hc
        exact ⟨hc ▸ isUtf8_encodeChar c, ht⟩
      | cons x rest =>
        -- The byte is in the first character, so it is all of it.
        obtain ⟨rfl, rfl⟩ := List.cons.inj hrest
        obtain ⟨x, hx⟩ | hhigh := utf8EncodeChar_cases c
        · rw [hx] at hc
          obtain ⟨rfl, hrest⟩ | ⟨-, hrest⟩ := List.append_eq_singleton_iff.mp hc.symm
          · obtain ⟨-, rfl⟩ := List.cons.inj hrest
            exact ⟨isUtf8_nil, (isUtf8_iff _).mpr ⟨characters, rfl⟩⟩
          · cases hrest
        · exact absurd hb (UInt8.not_lt.mpr (hhigh b (by simp [hc])))

/-- Characters of one byte each. -/
def Ascii (t : Text) : Prop := ∀ b ∈ t, b < 0x80

instance (t : Text) : Decidable (Ascii t) := inferInstanceAs (Decidable (∀ b ∈ t, b < 0x80))

theorem Ascii.append {s t : Text} (hs : Ascii s) (ht : Ascii t) : Ascii (s ++ t) :=
  List.forall_mem_append.mpr ⟨hs, ht⟩

theorem Blank.ascii {t : Text} (h : Blank t) : Ascii t := by
  intro b hb
  obtain rfl | rfl | rfl | rfl := isBlank_iff.mp (h b hb) <;> decide

theorem IsUtf8.of_append_left {s t : Text} (hs : Ascii s) (h : IsUtf8 (s ++ t)) : IsUtf8 t := by
  induction s with
  | nil => exact h
  | cons b s ih =>
    obtain ⟨hb, hs⟩ := List.forall_mem_cons.mp hs
    exact ih hs (IsUtf8.cut (s := []) hb h).2

theorem IsUtf8.of_append_right {s t : Text} (ht : Ascii t) (h : IsUtf8 (s ++ t)) : IsUtf8 s := by
  cases t with
  | nil => rwa [List.append_nil] at h
  | cons b t => exact (h.cut (ht b List.mem_cons_self)).1

/-! ### The strings of a value -/

theorem HexUnit.ascii {digits : Text} {u : ℕ} (h : HexUnit digits u) : Ascii digits := by
  have hall : ∀ b : UInt8, (Text.hexValue? b).isSome = true → b < 0x80 := by decide +kernel
  have hdigit : ∀ {b : UInt8} {n : ℕ}, HexDigit b n → b < 0x80 := by
    intro b n h
    exact hall b (Option.isSome_iff_exists.mpr ⟨n, (hexValue?_eq_some_iff b n).mpr h⟩)
  obtain ⟨first, second, third, fourth⟩ := h
  simp only [Ascii, List.forall_mem_cons]
  exact ⟨hdigit first, hdigit second, hdigit third, hdigit fourth, List.forall_mem_nil _⟩

/-- A character is written as the byte that it means, or in ASCII. -/
theorem Character.plain_or_ascii {written meant : Text} (h : Character written meant) :
    (∃ b, written = [b] ∧ meant = [b]) ∨
      ∃ b more, written = b :: more ∧ Ascii written ∧ IsUtf8 meant := by
  have hescape : Ascii (utf8 "\\u") := by decide +kernel
  cases h with
  | plain => exact .inl ⟨_, rfl, rfl⟩
  | @short e x named =>
    have hall : shortEscapes.all (fun entry => entry.1 < 0x80 && entry.2 < 0x80) = true := rfl
    have hentry := List.all_eq_true.mp hall (e, x) named
    simp only [Bool.and_eq_true, decide_eq_true_eq] at hentry
    obtain ⟨he, hx⟩ := hentry
    have hwritten : Ascii [byte '\\', e] :=
      List.forall_mem_cons.mpr ⟨by decide, List.forall_mem_singleton.mpr he⟩
    exact .inr ⟨_, _, rfl, hwritten, isUtf8_of_lt hx⟩
  | unit c unit =>
    exact .inr ⟨_, _, rfl, hescape.append unit.ascii, isUtf8_encodeChar c⟩
  | pair c highUnit _ lowUnit =>
    have hwritten := ((hescape.append highUnit.ascii).append hescape).append lowUnit.ascii
    exact .inr ⟨_, _, rfl, hwritten, isUtf8_encodeChar c⟩

/-- The invariant is about `plain`, the bytes behind the last escape: they need not be whole
characters yet, but they are before the next escape and at the end. -/
theorem Characters.isUtf8 {written meant : Text} (h : Characters written meant) (plain : Text)
    (hwritten : IsUtf8 (plain ++ written)) : IsUtf8 (plain ++ meant) := by
  induction h generalizing plain with
  | nil => exact hwritten
  | @cons written meant more moreMeant character _ ih =>
    obtain ⟨b, rfl, rfl⟩ | ⟨b, rest, rfl, hascii, hmeant⟩ := character.plain_or_ascii
    · have hall := ih (plain ++ [b]) (by simpa using hwritten)
      simpa using hall
    · obtain ⟨hb, hrest⟩ := List.forall_mem_cons.mp hascii
      obtain ⟨hplain, hmore⟩ := hwritten.cut hb
      exact hplain.append (hmeant.append (ih [] (hmore.of_append_left hrest)))

/-- The strings in a value and the keys of its objects. -/
inductive Occurs (s : Text) : Value → Prop where
  | string : Occurs s (.string s)
  | item {items : List Value} {v : Value} (mem : v ∈ items) (occurs : Occurs s v) :
      Occurs s (.array items)
  | key {members : Dictionary Value} {v : Value} (mem : (s, v) ∈ members) :
      Occurs s (.object members)
  | member {members : Dictionary Value} {key : Text} {v : Value} (mem : (key, v) ∈ members)
      (occurs : Occurs s v) : Occurs s (.object members)

theorem isUtf8_of_separated {parts : List Text} (h : IsUtf8 (separated parts)) {part : Text}
    (hpart : part ∈ parts) : IsUtf8 part := by
  induction parts with
  | nil => cases hpart
  | cons first parts ih =>
    by_cases hparts : parts = []
    · subst hparts
      rw [separated_singleton] at h
      rw [List.mem_singleton.mp hpart]
      exact h
    · rw [separated_cons first hparts] at h
      obtain ⟨hfirst, hrest⟩ := h.cut (by decide)
      obtain rfl | hpart := List.mem_cons.mp hpart
      · exact hfirst
      · exact ih hrest hpart

theorem Element.isUtf8_text {e : Element} (h : IsUtf8 e.written) : IsUtf8 e.text :=
  (h.of_append_right e.blankAfter.ascii).of_append_left e.blankBefore.ascii

theorem Member.isUtf8_parts {m : Member} (h : IsUtf8 m.written) :
    IsUtf8 m.meant ∧ IsUtf8 m.element.text := by
  obtain ⟨-, hkey⟩ := IsUtf8.cut (by decide) h
  obtain ⟨hkey, hrest⟩ := hkey.cut (by decide)
  obtain ⟨-, helement⟩ := hrest.cut (by decide)
  exact ⟨m.characters.isUtf8 [] hkey, Element.isUtf8_text helement⟩

theorem isUtf8_of_between {first last : UInt8} {inner : Text} (hfirst : first < 0x80)
    (hlast : last < 0x80) (h : IsUtf8 (first :: (inner ++ [last]))) : IsUtf8 inner := by
  obtain ⟨-, hinner⟩ := IsUtf8.cut (s := []) hfirst h
  exact (hinner.cut hlast).1

theorem Denotes.isUtf8 {left : ℕ} {t : Text} {v : Value} (h : Denotes left t v) (ht : IsUtf8 t)
    {s : Text} (hs : Occurs s v) : IsUtf8 s := by
  induction h with
  | null | yes | no => cases hs
  | number _ means => cases means <;> cases hs
  | string characters =>
    cases hs
    exact characters.isUtf8 [] (isUtf8_of_between (by decide) (by decide) ht)
  | emptyArray =>
    cases hs with
    | item mem => cases mem
  | @array _ items _ _ ih =>
    have htext : ∀ e ∈ items, IsUtf8 e.text := by
      intro e he
      have hinner := isUtf8_of_between (by decide) (by decide) ht
      exact Element.isUtf8_text (isUtf8_of_separated hinner (List.mem_map_of_mem he))
    cases hs with
    | item mem occurs =>
      obtain ⟨e, he, rfl⟩ := List.mem_map.mp mem
      exact ih e he (htext e he) occurs
  | emptyObject =>
    cases hs with
    | key mem | member mem => cases mem
  | @object _ members _ _ _ keeps ih =>
    have hparts : ∀ m ∈ members, IsUtf8 m.meant ∧ IsUtf8 m.element.text := by
      intro m hm
      have hinner := isUtf8_of_between (by decide) (by decide) ht
      exact Member.isUtf8_parts (isUtf8_of_separated hinner (List.mem_map_of_mem hm))
    cases hs with
    | key mem =>
      obtain ⟨m, hm, hentry⟩ := List.mem_map.mp (keeps.mem mem)
      obtain ⟨rfl, -⟩ := Prod.mk.inj hentry
      exact (hparts m hm).1
    | member mem occurs =>
      obtain ⟨m, hm, hentry⟩ := List.mem_map.mp (keeps.mem mem)
      obtain ⟨-, rfl⟩ := Prod.mk.inj hentry
      exact ih m hm (hparts m hm).2 occurs

/-- In the value of a valid text all strings are valid, and all keys. -/
theorem isUtf8_of_occurs {t : Text} {v : Value} (h : parse t = .ok v) (ht : IsUtf8 t) {s : Text}
    (hs : Occurs s v) : IsUtf8 s := by
  obtain ⟨before, text, after, hbefore, hafter, rfl, hden⟩ := denotes_of_parse h
  exact hden.isUtf8 ((ht.of_append_right hafter.ascii).of_append_left hbefore.ascii) hs

/-- A key and a string in which characters of two, three and four bytes stand among escapes. -/
def mixedText : Text := utf8 "\x7b\"\\né\":[\"€\\u00e9\\ud83d\\ude00€\"]\x7d"

def mixedValue : Value := .object [(utf8 "\né", .array [.string (utf8 "€é😀€")])]

theorem isUtf8_of_occurs_mixedText :
    parse mixedText = .ok mixedValue ∧ IsUtf8 mixedText ∧
      (Occurs (utf8 "\né") mixedValue ∧ IsUtf8 (utf8 "\né")) ∧
      Occurs (utf8 "€é😀€") mixedValue ∧ IsUtf8 (utf8 "€é😀€") := by
  have hparse : parse mixedText = .ok mixedValue := rfl
  have htext : IsUtf8 mixedText := isUtf8_utf8 _
  have hkey : Occurs (utf8 "\né") mixedValue := .key List.mem_cons_self
  have hstring : Occurs (utf8 "€é😀€") mixedValue :=
    .member List.mem_cons_self (.item List.mem_cons_self .string)
  exact ⟨hparse, htext, ⟨hkey, isUtf8_of_occurs hparse htext hkey⟩, hstring,
    isUtf8_of_occurs hparse htext hstring⟩

end NativeBuild.Json
