import NativeBuild.Proofs.Json.Grammar

/-!
# One step of the reader

A value, an item and a member are each read by one step: blanks, a byte that says what follows, and
the parts of it. Every step is told in two directions. What was read says how the text begins, and
a text that begins so is read.
-/
namespace NativeBuild.Json

variable {c : Cursor} {t rest : Text}

theorem Blank.dropWhile {blanks : Text} (h : Blank blanks) (t : Text) :
    (blanks ++ t).dropWhile isBlank = t.dropWhile isBlank := by
  rw [List.dropWhile_append_of_pos h]

theorem exists_blanks (c : Cursor) :
    ∃ blanks, Blank blanks ∧ c.rest = blanks ++ c.skipBlanks.rest := by
  refine ⟨c.rest.takeWhile isBlank, fun b hb => List.mem_takeWhile_imp hb, ?_⟩
  rw [Cursor.rest_skipBlanks, List.takeWhile_append_dropWhile]

theorem skipBlanks_eq {blanks : Text} {b : UInt8} (h : Blank blanks) (hb : isBlank b = false)
    (hc : c.rest = blanks ++ b :: t) : c.skipBlanks.rest = b :: t := by
  rw [Cursor.rest_skipBlanks, hc, h.dropWhile, List.dropWhile_cons_of_neg (by simp [hb])]

/-- A byte with which no number goes on. -/
def stopsAt (b : UInt8) : Bool :=
  !Text.isDigit b && b != byte '.' && b != byte 'e' && b != byte 'E'

theorem stopsAt_of_isBlank (b : UInt8) (hb : isBlank b = true) : stopsAt b = true := by
  obtain rfl | rfl | rfl | rfl := isBlank_iff.mp hb <;> decide

theorem Stops.of_head {b : UInt8} (hhead : t.head? = some b) (hb : stopsAt b = true) : Stops t := by
  simp only [stopsAt, Bool.and_eq_true, Bool.not_eq_true', bne_iff_ne] at hb
  obtain ⟨⟨⟨hdigit, hpoint⟩, hlower⟩, hupper⟩ := hb
  refine ⟨fun a ha => ?_, ?_, ?_, ?_⟩
  · obtain rfl := Option.some.inj (hhead.symm.trans ha)
    exact hdigit
  · simpa [hhead] using hpoint
  · simpa [hhead] using hlower
  · simpa [hhead] using hupper

theorem Stops.of_blanks {blanks : Text} (h : Blank blanks) : Stops blanks := by
  cases blanks with
  | nil => exact ⟨by simp [RunEnds], by simp, by simp⟩
  | cons a blanks => exact .of_head rfl (stopsAt_of_isBlank a (h a List.mem_cons_self))

theorem Stops.of_blank {blanks : Text} (h : Blank blanks) {b : UInt8}
    (hb : b = byte ',' ∨ b = byte ']' ∨ b = byte '\x7d') : Stops (blanks ++ b :: rest) := by
  obtain ⟨a, ha, hstop⟩ : ∃ a, (blanks ++ b :: rest).head? = some a ∧ stopsAt a = true := by
    cases blanks with
    | nil =>
      refine ⟨b, rfl, ?_⟩
      obtain rfl | rfl | rfl := hb <;> decide
    | cons a blanks => exact ⟨a, rfl, stopsAt_of_isBlank a (h a List.mem_cons_self)⟩
  exact .of_head ha hstop

section Parts

variable {depth left : ℕ} {close : UInt8} {cause : Cause} {empty v w : Value}
  {k : Cursor → Except Error (Value × Cursor)}

/-- What stands behind the first byte of a container: the closing byte, or something else. -/
def opened (depth : ℕ) (close : UInt8) (empty : Value)
    (k : Cursor → Except Error (Value × Cursor)) (c : Cursor) : Except Error (Value × Cursor) :=
  if maxDepth ≤ depth then c.fail .tooDeep
  else if (c.advance 1).skipBlanks.startsWith close then
    pure (empty, (c.advance 1).skipBlanks.advance 1)
  else k (c.advance 1).skipBlanks

/-- What stands behind a part of a container: a comma and more parts, or the closing byte. -/
def followed (close : UInt8) (cause : Cause) (v : Value)
    (k : Cursor → Except Error (Value × Cursor)) (c : Cursor) : Except Error (Value × Cursor) :=
  if c.startsWith (byte ',') then k (c.advance 1)
  else if c.startsWith close then pure (v, c.advance 1)
  else c.fail cause

/-- A key, the colon and the value. -/
def member (fuel depth : ℕ) (c : Cursor) : Except Error ((Text × Value) × Cursor) :=
  if !c.startsWith (byte '"') then c.fail .expectedKey
  else string c >>= fun key =>
    if !key.2.skipBlanks.startsWith (byte ':') then key.2.skipBlanks.fail .expectedColon
    else value fuel depth (key.2.skipBlanks.advance 1) >>= fun read =>
      pure ((key.1, read.1), read.2)

theorem value_succ (fuel depth : ℕ) (c : Cursor) :
    value (fuel + 1) depth c = match c.skipBlanks.rest with
    | [] => c.skipBlanks.fail .endOfInput
    | b :: _ =>
      if b = byte '\x7b' then
        opened depth (byte '\x7d') (.object []) (members fuel (depth + 1) []) c.skipBlanks
      else if b = byte '[' then
        opened depth (byte ']') (.array []) (items fuel (depth + 1) []) c.skipBlanks
      else if b = byte '"' then
        string c.skipBlanks >>= fun read => pure (.string read.1, read.2)
      else if b = byte 't' then literal (utf8 "true") (.bool true) c.skipBlanks
      else if b = byte 'f' then literal (utf8 "false") (.bool false) c.skipBlanks
      else if b = byte 'n' then literal (utf8 "null") .null c.skipBlanks
      else if b = byte '-' || Text.isDigit b then number c.skipBlanks
      else c.skipBlanks.fail (.unexpected b) := by
  rw [value]
  rfl

theorem items_succ (fuel depth : ℕ) (found : List Value) (c : Cursor) :
    items (fuel + 1) depth found c = value fuel depth c >>= fun read =>
      followed (byte ']') .expectedCommaOrBracket (.array (read.1 :: found).reverse)
        (items fuel depth (read.1 :: found)) read.2.skipBlanks := by
  rw [items]
  rfl

theorem members_succ (fuel depth : ℕ) (found : Dictionary Value) (c : Cursor) :
    members (fuel + 1) depth found c = member fuel depth c.skipBlanks >>= fun read =>
      followed (byte '\x7d') .expectedCommaOrBrace (.object (found.insert read.1.1 read.1.2))
        (members fuel depth (found.insert read.1.1 read.1.2)) read.2.skipBlanks := by
  rw [members]
  unfold member
  dsimp only
  split
  · rfl
  · cases string c.skipBlanks with
    | error e => rfl
    | ok key =>
      dsimp only [bind, Except.bind]
      split
      · rfl
      · cases value fuel depth (key.2.skipBlanks.advance 1) with
        | error e => rfl
        | ok read => rfl

theorem opened_of_reads {first : UInt8} (hc : c.rest = first :: t)
    (h : Reads (opened depth close empty k c) v rest) : depth < maxDepth ∧ ∃ blanks, Blank blanks ∧
      ((v = empty ∧ t = blanks ++ close :: rest) ∨
        ∃ d, t = blanks ++ d.rest ∧ Reads (k d) v rest) := by
  unfold opened at h
  split at h
  · exact absurd h (Reads.not_error _ _ _ _)
  · next hdepth =>
    obtain ⟨blanks, hblanks, hskip⟩ := exists_blanks (c.advance 1)
    have ht : t = blanks ++ (c.advance 1).skipBlanks.rest := by
      rw [← hskip, Cursor.rest_advance, hc]
      rfl
    refine ⟨Nat.lt_of_not_le hdepth, blanks, hblanks, ?_⟩
    split at h
    · next hclose =>
      obtain ⟨rfl, rfl⟩ := (Reads.ok_iff ..).mp h
      exact .inl ⟨rfl, ht.trans (congrArg _ ((Cursor.startsWith_iff _ _).mp hclose))⟩
    · exact .inr ⟨_, ht, h⟩

theorem followed_of_reads (h : Reads (followed close cause v k c) w rest) :
    (c.rest = byte ',' :: (c.advance 1).rest ∧ Reads (k (c.advance 1)) w rest) ∨
      (c.rest = close :: rest ∧ w = v) := by
  unfold followed at h
  split at h
  · next hcomma => exact .inl ⟨(Cursor.startsWith_iff _ c).mp hcomma, h⟩
  · split at h
    · next hclose =>
      obtain ⟨rfl, rfl⟩ := (Reads.ok_iff ..).mp h
      exact .inr ⟨(Cursor.startsWith_iff _ c).mp hclose, rfl⟩
    · exact absurd h (Reads.not_error _ _ _ _)

theorem string_of_reads {meant : Text} {b : UInt8} (hc : c.rest = b :: t)
    (h : Reads (string c) meant rest) :
    ∃ written, Characters written meant ∧ t = written ++ byte '"' :: rest := by
  obtain ⟨d, hd, rfl⟩ := h
  obtain ⟨written, body, ht⟩ := body_of_string hc hd
  exact ⟨written, (body_iff_characters ..).mp body, ht⟩

theorem literal_of_reads {word : Text} (h : Reads (literal word v c) w rest) :
    w = v ∧ c.rest = word ++ rest := by
  unfold literal at h
  split at h
  · next hword =>
    obtain ⟨rfl, rfl⟩ := (Reads.ok_iff ..).mp h
    refine ⟨rfl, ?_⟩
    exact (List.prefix_iff_eq_append.mp (List.isPrefixOf_iff_prefix.mp hword)).symm
  · exact absurd h (Reads.not_error _ _ _ _)

theorem reads_opened_empty {first : UInt8} {blanks : Text} (hdepth : depth < maxDepth)
    (hblanks : Blank blanks) (hclose : isBlank close = false)
    (hc : c.rest = first :: (blanks ++ close :: rest)) :
    Reads (opened depth close empty k c) empty rest := by
  have hskip : (c.advance 1).skipBlanks.rest = close :: rest :=
    skipBlanks_eq hblanks hclose (by simp [hc])
  unfold opened
  rw [if_neg (Nat.not_le.mpr hdepth), if_pos (by simp [Cursor.startsWith, hskip])]
  exact (Reads.ok_iff ..).mpr ⟨rfl, by simp [hskip]⟩

theorem reads_opened {first b : UInt8} {inner : Text} (hdepth : depth < maxDepth)
    (hc : c.rest = first :: t) (hinner : t.dropWhile isBlank = b :: inner) (hb : b ≠ close)
    (hk : ∀ d, d.rest = b :: inner → Reads (k d) v rest) :
    Reads (opened depth close empty k c) v rest := by
  have hskip : (c.advance 1).skipBlanks.rest = b :: inner := by
    rw [Cursor.rest_skipBlanks, Cursor.rest_advance, hc, ← hinner]
    rfl
  unfold opened
  rw [if_neg (Nat.not_le.mpr hdepth), if_neg (by simpa [Cursor.startsWith, hskip] using hb)]
  exact hk _ hskip

theorem reads_followed (hc : c.rest = byte ',' :: t)
    (hk : ∀ d, d.rest = t → Reads (k d) w rest) : Reads (followed close cause v k c) w rest := by
  unfold followed
  rw [if_pos (by simp [Cursor.startsWith, hc])]
  exact hk _ (by simp [hc])

theorem reads_followed_close (hclose : close ≠ byte ',') (hc : c.rest = close :: rest) :
    Reads (followed close cause v k c) v rest := by
  unfold followed
  rw [if_neg (by simpa [Cursor.startsWith, hc] using hclose),
    if_pos (by simp [Cursor.startsWith, hc])]
  exact (Reads.ok_iff ..).mpr ⟨rfl, by simp [hc]⟩

theorem reads_string {written meant : Text} (h : Characters written meant)
    (hc : c.rest = byte '"' :: (written ++ byte '"' :: rest)) : Reads (string c) meant rest :=
  ⟨_, string_of_body ((body_iff_characters ..).mpr h) hc, rfl⟩

theorem reads_literal {word : Text} (hc : c.rest = word ++ rest) :
    Reads (literal word v c) v rest := by
  unfold literal
  rw [if_pos (by rw [hc, List.isPrefixOf_iff_prefix]; exact List.prefix_append word rest)]
  exact (Reads.ok_iff ..).mpr ⟨rfl, by simp [hc]⟩

end Parts

end NativeBuild.Json
