import Mathlib.Data.FinEnum
import Mathlib.Data.List.TakeWhile
import NativeBuild.Proofs.Manifest.Grammar
import NativeBuild.Proofs.Reads

/-!
# Reading the parts of a manifest

Every part of a manifest is read as what it stands for: what fills the places between words is
dropped, strings and integers give their values, and a line with words gives its statement and
leaves the lines behind it. So a written text is read as the document that its lines build step by
step.
-/
namespace NativeBuild.Manifest

/-- A read gives `x` and stops before `rest`. -/
abbrev Reads {α : Type} (r : Except Error (α × Cursor)) (x : α) (rest : Text) : Prop :=
  NativeBuild.Reads Cursor.rest r x rest

@[simp] theorem Cursor.rest_drop (n : ℕ) (c : Cursor) : (c.drop n).rest = c.rest.drop n := rfl

variable {c : Cursor} {t rest : Text}

section Gaps

/-- What is left of a text behind blanks and comments. -/
def dropBlank (t : Text) : Text := (blankFrom false 1 t).rest

theorem rest_blankFrom (inside : Bool) (line line' : ℕ) (t : Text) :
    (blankFrom inside line t).rest = (blankFrom inside line' t).rest := by
  induction t generalizing inside line line' with
  | nil => rfl
  | cons b t ih =>
    simp only [blankFrom]
    split
    · exact ih false _ _
    split
    · exact ih true _ _
    split
    · exact ih false _ _
    split
    · exact ih true _ _
    · rfl

theorem Cursor.rest_skipBlank (c : Cursor) : c.skipBlank.rest = dropBlank c.rest :=
  rest_blankFrom false c.line 1 c.rest

theorem blankFrom_spaces {s : Text} (h : Spaces s) (line : ℕ) (t : Text) :
    blankFrom false line (s ++ t) = blankFrom false line t := by
  induction s with
  | nil => rfl
  | cons b s ih =>
    have hs : Spaces s := fun a ha => h a (List.mem_cons_of_mem b ha)
    rw [List.cons_append, blankFrom]
    obtain rfl | rfl := h b List.mem_cons_self
    · exact ih hs
    · exact ih hs

/-- Behind its first byte a comment goes on to the end of its line. -/
theorem blankFrom_comment {words : Text} (h : 0x0A ∉ words) (line : ℕ) (t : Text) :
    blankFrom false line (byte '#' :: (words ++ t)) = blankFrom true line t := by
  have hwords : blankFrom true line (words ++ t) = blankFrom true line t := by
    induction words with
    | nil => rfl
    | cons b words ih =>
      have hb : b ≠ 0x0A := by
        rintro rfl
        exact h List.mem_cons_self
      have hwords : 0x0A ∉ words := fun hmem => h (List.mem_cons_of_mem b hmem)
      rw [List.cons_append, blankFrom, if_neg hb, if_pos rfl]
      exact ih hwords
  exact hwords

theorem dropBlank_filler {gap : Text} (h : Filler gap) (t : Text) :
    dropBlank (gap ++ t) = dropBlank t := by
  induction h with
  | nil => rfl
  | @blank b more isBlank _ ih =>
    rw [List.cons_append, dropBlank, blankFrom]
    split
    · exact (rest_blankFrom false 2 1 _).trans ih
    · rw [if_neg Bool.false_ne_true]
      exact ih
  | @comment words more oneLine _ ih =>
    rw [List.cons_append, List.append_assoc, dropBlank, blankFrom_comment oneLine]
    exact (rest_blankFrom false 2 1 _).trans ih

theorem dropBlank_comment {words : Text} (h : 0x0A ∉ words) :
    dropBlank (byte '#' :: words) = [] := by
  have hwords := blankFrom_comment h 1 []
  rw [List.append_nil] at hwords
  rw [dropBlank, hwords]
  rfl

/-- A byte with which a word starts. -/
def startsWord (b : UInt8) : Bool := !Text.isBlank b && b != byte '#'

/-- A byte of a name is no space, and starts a word that is no header. -/
theorem isNameByte_spec : ∀ b, isNameByte b = true →
    (b == 0x20 || b == 0x09) = false ∧ startsWord b = true ∧ (b == byte '[') = false := by
  decide +kernel

theorem blankFrom_word {b : UInt8} (h : startsWord b = true) (line : ℕ) (t : Text) :
    blankFrom false line (b :: t) = ⟨b :: t, line⟩ := by
  simp only [startsWord, Bool.and_eq_true, Bool.not_eq_true', bne_iff_ne] at h
  obtain ⟨hblank, hcomment⟩ := h
  have hline : b ≠ 0x0A := by
    rintro rfl
    exact absurd hblank (by decide)
  rw [blankFrom, if_neg hline, if_neg Bool.false_ne_true,
    if_neg (by rw [hblank]; exact Bool.false_ne_true), if_neg hcomment]

theorem dropBlank_word {b : UInt8} (h : startsWord b = true) (t : Text) :
    dropBlank (b :: t) = b :: t :=
  congrArg Cursor.rest (blankFrom_word h 1 t)

theorem rest_skipSpaces {s : Text} (hs : Spaces s) (hc : c.rest = s ++ t)
    (ht : RunEnds (fun b => b == 0x20 || b == 0x09) t) : c.skipSpaces.rest = t := by
  have hspace : ∀ b ∈ s, (b == 0x20 || b == 0x09) = true := by
    intro b hb
    simpa using hs b hb
  rw [Cursor.skipSpaces, hc, ht.dropWhile hspace]

end Gaps

section Values

theorem name_eq {title : Text} (h : ∀ b ∈ title, isNameByte b = true) (hc : c.rest = title ++ rest)
    (hrest : RunEnds isNameByte rest) : name c = (title, c.drop title.length) := by
  simp only [name, hc, hrest.takeWhile h]

theorem isNameByte_of_isDigit {b : UInt8} (h : Text.isDigit b = true) : isNameByte b = true := by
  simp [isNameByte, Text.isAlphanumeric, h]

theorem RunEnds.digits (h : RunEnds isNameByte rest) : RunEnds Text.isDigit rest := by
  intro b hb
  by_contra hdigit
  have hname := isNameByte_of_isDigit (Bool.not_eq_false _ ▸ hdigit)
  rw [h b hb] at hname
  exact Bool.false_ne_true hname

theorem Elements.head {more : Text} {items : List Text} (h : Elements more items) :
    ∃ b t, more = b :: t ∧ startsWord b = true := by
  cases h with
  | close => exact ⟨_, _, rfl, by decide⟩
  | last => exact ⟨_, _, rfl, by decide⟩
  | cons => exact ⟨_, _, rfl, by decide⟩

theorem Elements.length_le {more : Text} {items : List Text} (h : Elements more items) :
    items.length ≤ more.length := by
  induction h with
  | close => exact Nat.zero_le _
  | last => simp
  | cons _ _ _ _ ih =>
    simp only [List.length_cons, List.length_append]
    omega

theorem stringFrom_character {written : Text} {b : UInt8} (h : Character written b) (line : ℕ)
    (out t : Text) :
    ∃ line', stringFrom line out (written ++ t) = stringFrom line' (b :: out) t := by
  cases h with
  | plain notQuote notEscape notEnd =>
    refine ⟨line, ?_⟩
    rw [List.singleton_append, stringFrom.eq_def]
    simp [notQuote, notEscape, notEnd]
  | escaped e =>
    refine ⟨if e = 0x0A then line + 1 else line, ?_⟩
    rw [List.cons_append, stringFrom.eq_def]
    rfl

theorem stringFrom_body {body meant : Text} (h : Body body meant) (line : ℕ) (out t : Text) :
    Reads (stringFrom line out (body ++ byte '"' :: t)) (out.reverse ++ meant) t := by
  induction h generalizing line out with
  | nil =>
    rw [List.nil_append, stringFrom.eq_def]
    exact ⟨⟨t, line⟩, by simp, rfl⟩
  | cons first _ ih =>
    obtain ⟨line', hfirst⟩ := stringFrom_character first line out (_ ++ byte '"' :: t)
    rw [List.append_assoc, hfirst]
    simpa using ih line' (_ :: out)

theorem reads_string {body meant : Text} (h : Body body meant)
    (hc : c.rest = byte '"' :: (body ++ byte '"' :: rest)) : Reads (string c) meant rest := by
  rw [string, if_pos (by simp [Cursor.startsWith, hc]), hc, List.drop_one, List.tail_cons]
  exact stringFrom_body h c.line [] rest

/-- A string in a list is read, and what follows it is found behind the gap. -/
theorem listFrom_string {body meant gap : Text} {b : UInt8} (isBody : Body body meant)
    (isFiller : Filler gap) (hb : startsWord b = true)
    (hc : c.rest = byte '"' :: (body ++ byte '"' :: (gap ++ b :: t))) (fuel : ℕ)
    (found : List Text) :
    ∃ d : Cursor, d.rest = b :: t ∧ listFrom (fuel + 1) found c =
      if d.startsWith (byte ',') then listFrom fuel (meant :: found) (d.drop 1).skipBlank
      else if d.startsWith (byte ']') then .ok ((meant :: found).reverse, d.drop 1)
      else d.fail .expectedCommaOrBracket := by
  obtain ⟨d, hd, hrest⟩ := reads_string isBody hc
  have hquote : byte '"' ≠ byte ']' := by decide
  refine ⟨d.skipBlank, ?_, ?_⟩
  · rw [Cursor.rest_skipBlank, hrest, dropBlank_filler isFiller, dropBlank_word hb]
  · rw [listFrom, if_neg (by simp [hc]), if_neg (by simpa [Cursor.startsWith, hc] using hquote), hd]
    rfl

/-- Each string of a list takes one unit of fuel, and the end of the list another. -/
theorem reads_elements {more : Text} {items : List Text} (h : Elements more items) {fuel : ℕ}
    (hfuel : items.length < fuel) {found : List Text} (hc : c.rest = more ++ rest) :
    Reads (listFrom fuel found c) (found.reverse ++ items) rest := by
  obtain ⟨fuel, rfl⟩ := Nat.exists_eq_add_of_lt hfuel
  induction h generalizing fuel found c with
  | close =>
    rw [listFrom, if_neg (by simp [hc]), if_pos (by simp [Cursor.startsWith, hc])]
    exact (Reads.ok_iff ..).mpr ⟨by simp, by simp [hc]⟩
  | last isBody isFiller =>
    obtain ⟨d, hd, hread⟩ := listFrom_string (c := c) (b := byte ']') (t := rest) isBody isFiller
      (by decide) (by simp [hc]) _ found
    have hclose : byte ']' ≠ byte ',' := by decide
    rw [hread, if_neg (by simpa [Cursor.startsWith, hd] using hclose),
      if_pos (by simp [Cursor.startsWith, hd])]
    exact (Reads.ok_iff ..).mpr ⟨by simp, by simp [hd]⟩
  | @cons body meant gap gap' more items isBody isFiller isFiller' others ih =>
    obtain ⟨d, hd, hread⟩ := listFrom_string (c := c) (b := byte ',') (t := gap' ++ (more ++ rest))
      isBody isFiller (by decide) (by simp [hc]) _ found
    have hnext : (d.drop 1).skipBlank.rest = more ++ rest := by
      obtain ⟨b, t, hmore, hb⟩ := others.head
      rw [Cursor.rest_skipBlank, Cursor.rest_drop, hd, List.drop_one, List.tail_cons,
        dropBlank_filler isFiller', hmore, List.cons_append, dropBlank_word hb]
    have hlength : (meant :: items).length + fuel = items.length + fuel + 1 := by
      rw [List.length_cons]
      omega
    rw [hread, if_pos (by simp [Cursor.startsWith, hd]), hlength]
    have hrest : Reads (listFrom (items.length + fuel + 1) (meant :: found) _)
        ((meant :: found).reverse ++ items) rest := ih hnext fuel (by omega)
    simpa using hrest

theorem reads_list {gap more : Text} {items : List Text} (hgap : Filler gap)
    (h : Elements more items) (hc : c.rest = byte '[' :: (gap ++ (more ++ rest))) :
    Reads (list c) items rest := by
  have hskip : (c.drop 1).skipBlank.rest = more ++ rest := by
    obtain ⟨b, t, hmore, hb⟩ := h.head
    rw [Cursor.rest_skipBlank, Cursor.rest_drop, hc, List.drop_one, List.tail_cons,
      dropBlank_filler hgap, hmore, List.cons_append, dropBlank_word hb]
  have hfuel : items.length < (c.drop 1).skipBlank.rest.length + 1 := by
    have hlength := h.length_le
    rw [hskip, List.length_append]
    omega
  exact reads_elements h hfuel hskip

theorem reads_integer (negative : Bool) {digits : Text} {i : ℤ} (hne : digits ≠ [])
    (heach : ∀ b ∈ digits, Text.isDigit b = true)
    (hi : i = if negative then -(Text.digitsValue digits : ℤ) else Text.digitsValue digits)
    (hrange : (Value.integer i).InRange) (hrest : RunEnds isNameByte rest)
    (hc : c.rest = (if negative then [byte '-'] else []) ++ (digits ++ rest)) :
    Reads (integer c) i rest := by
  have hminus : c.startsWith (byte '-') = negative := by
    cases negative with
    | true => simp [Cursor.startsWith, hc]
    | false =>
      obtain ⟨b, more, rfl⟩ := List.exists_cons_of_ne_nil hne
      have hne : b ≠ byte '-' := by
        rintro rfl
        exact absurd (heach _ List.mem_cons_self) (by decide)
      simpa [Cursor.startsWith, hc] using hne
  have hbehind : (if negative then c.drop 1 else c).rest = digits ++ rest := by
    cases negative <;> simp [hc]
  have hvalue : integerOf? negative digits = some i := by
    have hsigned : (if negative then -1 else 1) * (Text.digitsValue digits : ℤ) = i := by
      rw [hi]
      cases negative <;> simp
    unfold integerOf?
    dsimp only
    rw [hsigned, if_pos ⟨hne, hrange⟩]
  simp only [integer, hminus, hbehind, (RunEnds.digits hrest).takeWhile heach, hvalue]
  exact (Reads.ok_iff ..).mpr ⟨rfl, by simp [hbehind]⟩

/-- Where an integer starts, nothing else does. -/
theorem integerStart : ∀ b : UInt8, b = byte '-' ∨ Text.isDigit b = true →
    b ≠ byte '"' ∧ b ≠ byte '[' ∧ (decide (b = byte '-') || Text.isDigit b) = true := by
  decide +kernel

theorem reads_value_integer {b : UInt8} {i : ℤ} (hfront : c.rest.head? = some b)
    (hb : b = byte '-' ∨ Text.isDigit b = true) (h : Reads (integer c) i rest) :
    Reads (value c) (.integer i) rest := by
  obtain ⟨hquote, hbracket, hstart⟩ := integerStart b hb
  simp only [value, hfront]
  rw [if_neg hquote, if_neg hbracket, if_pos hstart]
  exact h.bind fun d hd => (Reads.ok_iff ..).mpr ⟨rfl, hd⟩

theorem reads_word {word : Text} {b : Bool} (hname : ∀ a ∈ word, isNameByte a = true)
    (hword : word = if b then utf8 "true" else utf8 "false") (hc : c.rest = word ++ rest)
    (hrest : RunEnds isNameByte rest) : Reads (value.word c) (.bool b) rest := by
  have hne : utf8 "false" ≠ utf8 "true" := by decide
  simp only [value.word, name_eq hname hc hrest]
  cases b with
  | true =>
    rw [hword, if_pos rfl, if_pos rfl]
    exact (Reads.ok_iff ..).mpr ⟨rfl, by simp [hc, hword]⟩
  | false =>
    rw [hword, if_neg Bool.false_ne_true, if_neg hne, if_pos rfl]
    exact (Reads.ok_iff ..).mpr ⟨rfl, by simp [hc, hword]⟩

theorem reads_value {text : Text} {v : Value} (h : Denotes text v)
    (hrest : RunEnds isNameByte rest) (hc : c.rest = text ++ rest) : Reads (value c) v rest := by
  cases h with
  | string isBody =>
    have hfront : c.rest.head? = some (byte '"') := by simp [hc]
    simp only [value, hfront]
    refine (reads_string isBody (by simpa using hc)).bind fun d hd => ?_
    exact (Reads.ok_iff ..).mpr ⟨rfl, hd⟩
  | strings isFiller elements =>
    have hfront : c.rest.head? = some (byte '[') := by simp [hc]
    simp only [value, hfront]
    refine (reads_list isFiller elements (by simpa using hc)).bind fun d hd => ?_
    exact (Reads.ok_iff ..).mpr ⟨rfl, hd⟩
  | yes =>
    have hfront : c.rest.head? = some (byte 't') := by rw [hc]; rfl
    have hname : ∀ a ∈ utf8 "true", isNameByte a = true := by decide +kernel
    simp only [value, hfront]
    exact reads_word hname rfl hc hrest
  | no =>
    have hfront : c.rest.head? = some (byte 'f') := by rw [hc]; rfl
    have hname : ∀ a ∈ utf8 "false", isNameByte a = true := by decide +kernel
    simp only [value, hfront]
    exact reads_word hname rfl hc hrest
  | natural nonempty each inRange =>
    have hread := reads_integer false nonempty each rfl inRange hrest hc
    obtain ⟨b, more, rfl⟩ := List.exists_cons_of_ne_nil nonempty
    exact reads_value_integer (by simp [hc]) (.inr (each b List.mem_cons_self)) hread
  | negative nonempty each inRange =>
    have hread := reads_integer true nonempty each rfl inRange hrest hc
    exact reads_value_integer (by simp [hc]) (.inl rfl) hread

end Values

section Lines

theorem lineOver_nil : LineOver [] := fun _ h => nomatch h

/-- A line is over exactly where reading finds it over. -/
theorem lineEnd_eq_ok_iff {d : Cursor} :
    lineEnd c = .ok d ↔ LineOver c.rest ∧ d = c.skipSpaces.skipComment := by
  have hover : (c.skipSpaces.skipComment.rest.isEmpty || c.skipSpaces.skipComment.startsWith 0x0A ||
      c.skipSpaces.skipComment.startsWith 0x0D) = true ↔ LineOver c.rest := by
    have hline : LineOver c.rest ↔
        ∀ b ∈ c.skipSpaces.rest.head?, b = 0x0A ∨ b = 0x0D ∨ b = byte '#' := Iff.rfl
    rw [hline]
    cases hrest : c.skipSpaces.rest with
    | nil => simp [Cursor.skipComment, Cursor.startsWith, hrest]
    | cons b t =>
      by_cases hcomment : b = byte '#'
      · have hend := List.head?_dropWhile_not (· != 0x0A) (b :: t)
        subst hcomment
        simp only [Cursor.skipComment, Cursor.startsWith, hrest, List.head?_cons, beq_self_eq_true,
          if_true]
        cases hdrop : (byte '#' :: t).dropWhile (· != 0x0A) with
        | nil => simp
        | cons a more =>
          rw [hdrop] at hend
          have ha : a = 0x0A := by simpa using hend
          simp [ha]
      · simp [Cursor.skipComment, Cursor.startsWith, hrest, hcomment]
  unfold lineEnd
  dsimp only
  by_cases h : LineOver c.rest
  · rw [if_pos (hover.mpr h)]
    simp [h, eq_comm]
  · rw [if_neg (hover.not.mpr h)]
    simp [h, Cursor.fail]

/-- What stands behind a line goes on with no name. -/
theorem LineOver.runEnds (h : LineOver rest) : RunEnds isNameByte rest := by
  intro b hb
  cases rest with
  | nil => cases hb
  | cons a t =>
    obtain rfl := Option.some.inj hb
    by_cases ha : (a == 0x20 || a == 0x09) = true
    · refine Bool.eq_false_iff.mpr fun hname => ?_
      exact Bool.false_ne_true ((isNameByte_spec a hname).1.symm.trans ha)
    · have hover := h a (by simp [ha])
      obtain rfl | rfl | rfl := hover <;> decide

/-- The blanks behind a line go on where the line was over. -/
theorem skipBlank_of_lineEnd {d : Cursor} (h : lineEnd c = .ok d) : d.skipBlank = c.skipBlank := by
  obtain ⟨-, rfl⟩ := lineEnd_eq_ok_iff.mp h
  have hspaces : c.skipSpaces.skipBlank = c.skipBlank := by
    have htake : Spaces (c.rest.takeWhile fun b => b == 0x20 || b == 0x09) := by
      intro b hb
      simpa using List.mem_takeWhile_imp hb
    have hskip := blankFrom_spaces htake c.line (c.rest.dropWhile fun b => b == 0x20 || b == 0x09)
    rw [List.takeWhile_append_dropWhile] at hskip
    exact hskip.symm
  rw [← hspaces]
  generalize c.skipSpaces = c
  unfold Cursor.skipComment
  split
  · next hstarts =>
    -- The comment ends at the end of the text or with its line, and both are blank as well.
    obtain ⟨t, ht⟩ : ∃ t, c.rest = byte '#' :: t := by
      cases hrest : c.rest with
      | nil => simp [Cursor.startsWith, hrest] at hstarts
      | cons b t =>
        have hb : b = byte '#' := by simpa [Cursor.startsWith, hrest] using hstarts
        exact ⟨t, by rw [hb]⟩
    have hwords : 0x0A ∉ t.takeWhile (· != 0x0A) := by
      intro hmem
      simpa using List.mem_takeWhile_imp hmem
    have hskip := blankFrom_comment hwords c.line (t.dropWhile (· != 0x0A))
    rw [List.takeWhile_append_dropWhile, ← ht] at hskip
    have hdrop : c.rest.dropWhile (· != 0x0A) = t.dropWhile (· != 0x0A) := by
      rw [ht, List.dropWhile_cons_of_pos (by decide)]
    have hend := List.head?_dropWhile_not (· != 0x0A) t
    unfold Cursor.skipBlank
    rw [hskip, hdrop]
    cases hrest : t.dropWhile (· != 0x0A) with
    | nil => rfl
    | cons b more =>
      rw [hrest] at hend
      have hb : b = 0x0A := by simpa using hend
      rw [hb]
      rfl
  · rfl

theorem runEnds_spaces {s : Text} (hs : Spaces s) (ht : RunEnds isNameByte t) :
    RunEnds isNameByte (s ++ t) := by
  cases s with
  | nil => exact ht
  | cons b s =>
    rintro _ ⟨⟩
    obtain rfl | rfl := hs b List.mem_cons_self <;> decide

/-- A name, and the byte behind the spaces that follow it. -/
theorem name_then {title after : Text} {b : UInt8} (htitle : IsName title) (hafter : Spaces after)
    (hb : isNameByte b = false) (hspace : (b == 0x20 || b == 0x09) = false)
    (hc : c.rest = title ++ (after ++ b :: t)) :
    ∃ d, name c = (title, d) ∧ d.skipSpaces.rest = b :: t := by
  refine ⟨c.drop title.length, name_eq htitle.2 hc ?_, ?_⟩
  · refine runEnds_spaces hafter ?_
    rintro _ ⟨⟩
    exact hb
  · refine rest_skipSpaces hafter (by simp [hc]) ?_
    rintro _ ⟨⟩
    exact hspace

theorem IsName.spacesEnd {title : Text} (h : IsName title) (t : Text) :
    RunEnds (fun b => b == 0x20 || b == 0x09) (title ++ t) := by
  obtain ⟨b, more, rfl⟩ := List.exists_cons_of_ne_nil h.1
  rintro _ ⟨⟩
  exact (isNameByte_spec b (h.2 b List.mem_cons_self)).1

theorem Denotes.spacesEnd {text : Text} {v : Value} (h : Denotes text v) (t : Text) :
    RunEnds (fun b => b == 0x20 || b == 0x09) (text ++ t) := by
  cases h with
  | natural nonempty each =>
    obtain ⟨b, more, rfl⟩ := List.exists_cons_of_ne_nil nonempty
    rintro _ ⟨⟩
    exact (isNameByte_spec b (isNameByte_of_isDigit (each b List.mem_cons_self))).1
  | string | negative | yes | no | strings =>
    rintro _ ⟨⟩
    decide

theorem not_bracket_of_title {before title : Text} (hbefore : Spaces before)
    (htitle : IsName title) (t : Text) : (before ++ (title ++ t)).head? ≠ some (byte '[') := by
  cases before with
  | nil =>
    obtain ⟨b, more, rfl⟩ := List.exists_cons_of_ne_nil htitle.1
    rintro ⟨⟩
    exact absurd (htitle.2 _ List.mem_cons_self) (by decide)
  | cons b before =>
    rintro ⟨⟩
    obtain h | h := hbefore _ List.mem_cons_self
    · exact absurd h (by decide)
    · exact absurd h (by decide)

/-- A header is read up to the end of its line. -/
theorem header_eq {text title : Text} {isEntry : Bool} (h : States text (.header title isEntry))
    (hover : LineOver rest) (hc : c.rest = text ++ rest) :
    ∃ d, header c = .ok ({ name := title, isEntry }, d) ∧ dropBlank d.rest = dropBlank rest := by
  obtain @⟨_, before, after, _, htitle, isBefore, isAfter⟩ := h
  have hentry : (c.drop 1).startsWith (byte '[') = isEntry := by
    cases isEntry with
    | true => simp [Cursor.startsWith, hc, brackets]
    | false =>
      have hfront := not_bracket_of_title isBefore htitle
        (after ++ brackets (byte ']') false ++ rest)
      simpa [Cursor.startsWith, hc, brackets] using hfront
  have hinner : (if isEntry then (c.drop 1).drop 1 else c.drop 1).rest =
      before ++ (title ++ (after ++ (brackets (byte ']') isEntry ++ rest))) := by
    cases isEntry <;> simp [hc, brackets]
  obtain ⟨close, hclose⟩ : ∃ close, brackets (byte ']') isEntry = byte ']' :: close ∧
      close = if isEntry then [byte ']'] else [] := by
    cases isEntry <;> exact ⟨_, rfl, rfl⟩
  have hskip := rest_skipSpaces isBefore hinner (htitle.spacesEnd _)
  obtain ⟨d, hname, hbracket⟩ := name_then (b := byte ']') htitle isAfter (by decide) (by decide)
    (t := close ++ rest) (by rw [hskip, hclose.1]; rfl)
  have hsecond : (isEntry && !(d.skipSpaces.drop 1).startsWith (byte ']')) = false := by
    cases isEntry <;> simp [Cursor.startsWith, hbracket, hclose.2]
  have hend : (if isEntry then (d.skipSpaces.drop 1).drop 1 else d.skipSpaces.drop 1).rest =
      rest := by
    cases isEntry <;> simp [hbracket, hclose.2]
  obtain ⟨e, he⟩ : ∃ e, lineEnd (if isEntry then (d.skipSpaces.drop 1).drop 1
      else d.skipSpaces.drop 1) = .ok e := ⟨_, lineEnd_eq_ok_iff.mpr ⟨hend ▸ hover, rfl⟩⟩
  refine ⟨e, ?_, ?_⟩
  · simp only [header, hentry, hname]
    rw [if_neg htitle.1, if_neg (by simp [Cursor.startsWith, hbracket]),
      if_neg (by simp [hsecond]), he]
    rfl
  · rw [← Cursor.rest_skipBlank, skipBlank_of_lineEnd he, Cursor.rest_skipBlank, hend]

/-- A setting is read up to the end of its line. -/
theorem setting_eq {text key : Text} {v : Value} (h : States text (.setting key v))
    (hover : LineOver rest) (hc : c.rest = text ++ rest) :
    ∃ d, setting c = .ok ((key, v), d) ∧ dropBlank d.rest = dropBlank rest := by
  obtain _ | @⟨_, before, after, text, _, hkey, isBefore, isAfter, denotes⟩ := h
  obtain ⟨d, hname, hequals⟩ := name_then (b := byte '=') hkey isBefore (by decide) (by decide)
    (t := after ++ (text ++ rest)) (by simpa using hc)
  have hvalue : (d.skipSpaces.drop 1).skipSpaces.rest = text ++ rest :=
    rest_skipSpaces isAfter (by simp [hequals]) (denotes.spacesEnd _)
  obtain ⟨e, he, hrest⟩ := reads_value denotes hover.runEnds hvalue
  obtain ⟨f, hf⟩ : ∃ f, lineEnd e = .ok f := ⟨_, lineEnd_eq_ok_iff.mpr ⟨hrest ▸ hover, rfl⟩⟩
  refine ⟨f, ?_, ?_⟩
  · obtain ⟨b, key, rfl⟩ := List.exists_cons_of_ne_nil hkey.1
    simp only [setting, hname]
    rw [if_neg (by simp [Cursor.startsWith, hequals]), he]
    dsimp only [bind, Except.bind]
    rw [hf]
    rfl
  · rw [← Cursor.rest_skipBlank, skipBlank_of_lineEnd hf, Cursor.rest_skipBlank, hrest]

end Lines

section Statements

def Statement.isHeader : Statement → Bool
  | .header _ _ => true
  | .setting _ _ => false

/-- Headers are told from settings by their first byte. -/
theorem States.head {text : Text} {s : Statement} (h : States text s) :
    ∃ b t, text = b :: t ∧ startsWord b = true ∧ (b == byte '[') = s.isHeader := by
  cases h with
  | @header _ _ _ isEntry =>
    cases isEntry
    · exact ⟨_, _, rfl, by decide, rfl⟩
    · exact ⟨_, _, rfl, by decide, rfl⟩
  | @setting key _ _ _ _ isName =>
    obtain ⟨b, more, rfl⟩ := List.exists_cons_of_ne_nil isName.1
    exact ⟨b, _, rfl, (isNameByte_spec b (isName.2 b List.mem_cons_self)).2⟩

/-- One step of the reader is one statement. -/
theorem sectionsFrom_statement {text : Text} {s : Statement} (h : States text s)
    (hover : LineOver rest) (hc : dropBlank c.rest = text ++ rest) (fuel : ℕ)
    (done : List Section) (current : Section) :
    ∃ d, sectionsFrom (fuel + 1) done current c =
        sectionsFrom fuel (s.apply done current).1 (s.apply done current).2 d ∧
      dropBlank d.rest = dropBlank rest := by
  rw [← Cursor.rest_skipBlank] at hc
  obtain ⟨b, t, htext, -, hb⟩ := h.head
  have hheader : c.skipBlank.startsWith (byte '[') = s.isHeader := by
    simp [Cursor.startsWith, hc, htext, ← hb]
  rw [sectionsFrom]
  dsimp only
  rw [if_neg (by simp [hc, htext]), hheader]
  cases s with
  | header title isEntry =>
    obtain ⟨d, hd, hmore⟩ := header_eq h hover hc
    rw [Statement.isHeader, if_pos rfl, hd]
    exact ⟨d, rfl, hmore⟩
  | setting key v =>
    obtain ⟨d, hd, hmore⟩ := setting_eq h hover hc
    rw [Statement.isHeader, if_neg Bool.false_ne_true, hd]
    exact ⟨d, rfl, hmore⟩

theorem sectionsFrom_end {fuel : ℕ} (hfuel : 0 < fuel) (hc : dropBlank c.rest = [])
    (done : List Section) (current : Section) :
    sectionsFrom fuel done current c = .ok (build done current []) := by
  obtain ⟨fuel, rfl⟩ := Nat.exists_eq_add_of_lt hfuel
  rw [← Cursor.rest_skipBlank] at hc
  rw [sectionsFrom]
  dsimp only
  rw [if_pos (by simp [hc])]
  rfl

/-- Each statement takes one unit of fuel. -/
theorem sectionsFrom_written {statements : List Statement} (h : Written t statements) {fuel : ℕ}
    (hfuel : statements.length < fuel) {done : List Section} {current : Section}
    (hc : dropBlank c.rest = dropBlank t) :
    sectionsFrom fuel done current c = .ok (build done current statements) := by
  induction h generalizing fuel done current c with
  | @filler gap isFiller =>
    rw [← List.append_nil gap, dropBlank_filler isFiller] at hc
    exact sectionsFrom_end hfuel hc done current
  | comment isFiller oneLine =>
    rw [dropBlank_filler isFiller, dropBlank_comment oneLine] at hc
    exact sectionsFrom_end hfuel hc done current
  | @cons gap text more s statements isFiller states lineOver _ ih =>
    obtain ⟨fuel, rfl⟩ := Nat.exists_eq_add_of_lt hfuel
    obtain ⟨b, tail, htext, hb, -⟩ := states.head
    rw [dropBlank_filler isFiller, htext, List.cons_append, dropBlank_word hb, ← List.cons_append,
      ← htext] at hc
    obtain ⟨d, hstep, hd⟩ := sectionsFrom_statement states lineOver hc
      ((s :: statements).length + fuel) done current
    rw [hstep]
    exact ih (by simp only [List.length_cons]; omega) hd

theorem Written.length_le {statements : List Statement} (h : Written t statements) :
    statements.length ≤ t.length := by
  induction h with
  | filler | comment => exact Nat.zero_le _
  | cons _ states _ _ ih =>
    obtain ⟨b, tail, rfl, -⟩ := states.head
    simp only [List.length_cons, List.length_append]
    omega

/-- A written text is read as the document that its lines build. -/
theorem parse_written {statements : List Statement} (h : Written t statements) :
    parse t = .ok (build [] {} statements) :=
  sectionsFrom_written h (Nat.lt_succ_of_le h.length_le) rfl

end Statements

end NativeBuild.Manifest
