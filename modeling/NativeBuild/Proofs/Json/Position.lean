import Mathlib.Data.List.DropRight
import NativeBuild.Proofs.Json.Reading

/-!
# Where a reader stands

The line and the column of a cursor are those of the text behind it: the line feeds in it, and the
bytes behind the last of them. `Scans B c r` says of a read from `c` that it keeps to this. Where it
fails, it has read some text of which `B` holds, and it names the end of that text, or a place
further on when it has gone over the bytes that are wrong.
-/
namespace NativeBuild.Json

/-- The line of the byte behind a text. -/
def lineOf (seen : Text) : ℕ := 1 + seen.count 0x0A

/-- The column of the byte behind a text. -/
def columnOf (seen : Text) : ℕ := (seen.rtakeWhile (· != 0x0A)).length + 1

theorem columnOf_lineFeed (seen : Text) : columnOf (seen ++ [0x0A]) = 1 := by
  simp [columnOf]

theorem columnOf_concat {b : UInt8} (h : b ≠ 0x0A) (seen : Text) :
    columnOf (seen ++ [b]) = columnOf seen + 1 := by
  simp [columnOf, h]

theorem columnOf_append {t : Text} (h : 0x0A ∉ t) (seen : Text) :
    columnOf (seen ++ t) = columnOf seen + t.length := by
  induction t generalizing seen with
  | nil => simp
  | cons b t ih =>
    obtain ⟨hb, ht⟩ := not_or.mp (mt List.mem_cons.mpr h)
    rw [List.append_cons, ih ht, columnOf_concat (Ne.symm hb), List.length_cons, Nat.add_assoc,
      Nat.add_comm 1]

namespace Cursor

/-- The cursor stands behind this text. -/
structure Behind (seen : Text) (c : Cursor) : Prop where
  line : c.line = lineOf seen
  column : c.column = columnOf seen

/-- From one cursor to the next over a text. -/
structure Takes (c : Cursor) (t : Text) (d : Cursor) : Prop where
  rest : c.rest = t ++ d.rest
  behind : ∀ {seen : Text}, c.Behind seen → d.Behind (seen ++ t)

variable {c d e : Cursor} {s t : Text}

theorem behind_start (t : Text) : (start t).Behind [] := ⟨rfl, rfl⟩

theorem Takes.refl (c : Cursor) : c.Takes [] c :=
  ⟨rfl, fun h => by rwa [List.append_nil]⟩

theorem Takes.trans (h : c.Takes s d) (h' : d.Takes t e) : c.Takes (s ++ t) e := by
  refine ⟨by rw [h.rest, h'.rest, List.append_assoc], fun hseen => ?_⟩
  rw [← List.append_assoc]
  exact h'.behind (h.behind hseen)

/-- What is taken is told by what is left. -/
theorem Takes.text_eq (h : c.Takes s d) (ht : c.rest = t ++ d.rest) : s = t :=
  List.append_cancel_right (h.rest.symm.trans ht)

theorem takes_line (hline : 0x0A ∉ t) (rest : Text) (line column : ℕ) :
    Takes ⟨t ++ rest, line, column⟩ t ⟨rest, line, column + t.length⟩ := by
  refine ⟨rfl, fun hseen => ⟨?_, ?_⟩⟩
  · rw [lineOf, List.count_append, List.count_eq_zero.mpr hline]
    exact hseen.line
  · rw [columnOf_append hline]
    exact congrArg (· + t.length) hseen.column

theorem takes_advance {rest : Text} (hline : 0x0A ∉ t) (hc : c.rest = t ++ rest) :
    c.Takes t (c.advance t.length) := by
  obtain ⟨text, line, column⟩ := c
  obtain rfl : text = t ++ rest := hc
  simpa [advance] using takes_line hline rest line column

theorem takes_of_startsWith {b : UInt8} (h : c.startsWith b = true) (hb : b ≠ 0x0A) :
    c.Takes [b] (c.advance 1) :=
  takes_advance (by simpa using hb.symm) ((startsWith_iff b c).mp h)

theorem takes_of_startsWith_or {a b : UInt8} (h : (c.startsWith a || c.startsWith b) = true)
    (ha : a ≠ 0x0A) (hb : b ≠ 0x0A) : ∃ x, (x = a ∨ x = b) ∧ c.Takes [x] (c.advance 1) := by
  obtain h | h := Bool.or_eq_true_iff.mp h
  · exact ⟨a, .inl rfl, takes_of_startsWith h ha⟩
  · exact ⟨b, .inr rfl, takes_of_startsWith h hb⟩

theorem takes_blanksFrom (line column : ℕ) (t : Text) :
    ∃ blanks, Blank blanks ∧ Takes ⟨t, line, column⟩ blanks (blanksFrom line column t) := by
  have hnext {line column line' column' : ℕ} {b : UInt8} {t : Text} (hb : isBlank b = true)
      (htakes : Takes ⟨b :: t, line, column⟩ [b] ⟨t, line', column'⟩)
      (ih : ∃ blanks, Blank blanks ∧
        Takes ⟨t, line', column'⟩ blanks (blanksFrom line' column' t)) :
      ∃ blanks, Blank blanks ∧
        Takes ⟨b :: t, line, column⟩ blanks (blanksFrom line' column' t) := by
    obtain ⟨blanks, hblanks, hrest⟩ := ih
    exact ⟨b :: blanks, List.forall_mem_cons.mpr ⟨hb, hblanks⟩, htakes.trans hrest⟩
  induction t generalizing line column with
  | nil => exact ⟨[], .nil, .refl _⟩
  | cons b t ih =>
    rw [blanksFrom]
    split
    · next hb =>
      subst hb
      refine hnext rfl ⟨rfl, fun hseen => ⟨?_, (columnOf_lineFeed _).symm⟩⟩ (ih _ _)
      have hrow := hseen.line
      simp only [lineOf, List.count_append] at hrow ⊢
      simp [hrow, Nat.add_assoc]
    split
    · next hline hb =>
      have hblank : isBlank b = true := by
        obtain rfl | rfl | rfl := hb <;> decide
      have htakes := takes_line (t := [b]) (by simpa using Ne.symm hline) t line column
      exact hnext hblank htakes (ih _ _)
    · exact ⟨[], .nil, .refl _⟩

theorem takes_skipBlanks (c : Cursor) : ∃ blanks, Blank blanks ∧ c.Takes blanks c.skipBlanks :=
  takes_blanksFrom c.line c.column c.rest

end Cursor

/-- The bytes that are wrong, where the reader has gone over them when it finds it out: the byte
that no string may hold, the byte behind the backslash, and the digits of a surrogate. -/
def Cause.Passes : Cause → Text → Prop
  | .controlCharacter, passed => ∃ b, b < 0x20 ∧ passed = [b]
  | .badEscape b, passed => passed = [b]
  | .unpairedSurrogate, passed => passed = [] ∨ ∃ u, HexUnit passed u
  | _, passed => passed = []

variable {α β : Type} {c d : Cursor} {t : Text}

/-- A read that fails has gone over a text and over the bytes that are wrong. -/
structure Refuses (B : Cause → Text → Prop) (c : Cursor) (e : Error) (seen passed : Text)
    (d : Cursor) : Prop where
  takes : c.Takes seen d
  ahead : passed <+: d.rest
  line : e.line = d.line
  column : e.column = d.column + passed.length
  passes : e.cause.Passes passed
  begins : B e.cause seen

/-- A read moves its cursor over what it takes, or it fails behind a text of which `B` holds. -/
def Scans (B : Cause → Text → Prop) (c : Cursor) : Except Error (α × Cursor) → Prop
  | .ok (_, d) => ∃ t, c.Takes t d
  | .error e => ∃ seen passed d, Refuses B c e seen passed d

namespace Scans

variable {B B' : Cause → Text → Prop} {r : Except Error (α × Cursor)} {cause : Cause}

theorem ok (x : α) (h : c.Takes t d) : Scans B c (.ok (x, d)) := ⟨t, h⟩

theorem fail (hB : B cause []) (hpasses : cause.Passes []) :
    Scans B c (c.fail cause : Except Error (α × Cursor)) :=
  ⟨[], [], c, .refl c, List.nil_prefix, rfl, rfl, hpasses, hB⟩

/-- An error in the line of the cursor. -/
theorem fail_line {seen passed rest : Text} {line column : ℕ} (hB : B cause seen)
    (hpasses : cause.Passes passed) (hline : 0x0A ∉ seen) :
    Scans B ⟨seen ++ (passed ++ rest), line, column⟩
      (.error ⟨cause, line, column + (seen.length + passed.length)⟩ :
        Except Error (α × Cursor)) :=
  ⟨seen, passed, _, Cursor.takes_line hline _ _ _, List.prefix_append _ _, rfl,
    (Nat.add_assoc ..).symm, hpasses, hB⟩

theorem of_takes (h : c.Takes t d) (hr : Scans (fun cause s => B cause (t ++ s)) d r) :
    Scans B c r := by
  match r, hr with
  | .ok _, ⟨s, hs⟩ => exact ⟨t ++ s, h.trans hs⟩
  | .error _, ⟨seen, passed, e, hseen⟩ =>
    exact ⟨t ++ seen, passed, e, h.trans hseen.takes, hseen.ahead, hseen.line, hseen.column,
      hseen.passes, hseen.begins⟩

theorem mono (h : Scans B c r) (hB : ∀ cause s, B cause s → B' cause s) : Scans B' c r := by
  match r, h with
  | .ok _, h => exact h
  | .error _, ⟨seen, passed, d, hseen⟩ =>
    exact ⟨seen, passed, d, { hseen with begins := hB _ _ hseen.begins }⟩

theorem bind {k : α × Cursor → Except Error (β × Cursor)} (h : Scans B c r)
    (hB : ∀ cause s, B cause s → B' cause s)
    (hk : ∀ x d t, r = .ok (x, d) → c.Takes t d →
      Scans (fun cause s => B' cause (t ++ s)) d (k (x, d))) : Scans B' c (r >>= k) := by
  match r, h with
  | .ok (x, d), ⟨t, ht⟩ => exact .of_takes ht (hk x d t rfl ht)
  | .error _, ⟨seen, passed, d, hseen⟩ =>
    exact ⟨seen, passed, d, { hseen with begins := hB _ _ hseen.begins }⟩

end Scans

end NativeBuild.Json
