import NativeBuild.Proofs.Manifest.Reading

/-!
# What is accepted, and how far

The reader accepts the written texts and no others. A text that it refuses has a good beginning:
what stands before the line with the error is the beginning of a written text. Both are told
together, part by part. `Scans P c r` says that a read from `c` either takes a text with its
meaning, or stops behind a text that goes on to one with a meaning.
-/
namespace NativeBuild.Manifest

namespace Cursor

/-- From one cursor to the next over a text, in which the line feeds count. -/
structure Takes (c : Cursor) (t : Text) (d : Cursor) : Prop where
  rest : c.rest = t ++ d.rest
  line : d.line = c.line + t.count 0x0A

variable {c d e : Cursor} {s t : Text}

theorem Takes.refl (c : Cursor) : c.Takes [] c := ⟨rfl, rfl⟩

theorem Takes.trans (h : c.Takes s d) (h' : d.Takes t e) : c.Takes (s ++ t) e := by
  refine ⟨?_, ?_⟩
  · rw [h.rest, h'.rest, List.append_assoc]
  · rw [h'.line, h.line, List.count_append, Nat.add_assoc]

theorem Takes.line_le (h : c.Takes t d) : c.line ≤ d.line := h.line ▸ Nat.le_add_right _ _

theorem Takes.length_le (h : c.Takes t d) : d.rest.length ≤ c.rest.length := by
  rw [h.rest, List.length_append]
  exact Nat.le_add_left _ _

theorem takes_drop (h : c.rest = s ++ t) (hs : 0x0A ∉ s) : c.Takes s (c.drop s.length) := by
  refine ⟨?_, ?_⟩
  · rw [rest_drop, h, List.drop_left]
  · rw [List.count_eq_zero.mpr hs]
    rfl

/-- Moving over bytes that satisfy `p`, which no line feed does, stays in the line. -/
theorem takes_dropWhile {p : UInt8 → Bool} (hp : p 0x0A = false) (c : Cursor) :
    c.Takes (c.rest.takeWhile p) { c with rest := c.rest.dropWhile p } := by
  have hline : 0x0A ∉ c.rest.takeWhile p := by
    intro hmem
    rw [List.mem_takeWhile_imp hmem] at hp
    exact Bool.noConfusion hp
  refine ⟨List.takeWhile_append_dropWhile.symm, ?_⟩
  rw [List.count_eq_zero.mpr hline]
  rfl

theorem rest_of_startsWith {b : UInt8} (h : c.startsWith b = true) : ∃ t, c.rest = b :: t := by
  cases hrest : c.rest with
  | nil => simp [startsWith, hrest] at h
  | cons a t =>
    have ha : a = b := by simpa [startsWith, hrest] using h
    exact ⟨t, by rw [ha]⟩

theorem takes_of_startsWith {b : UInt8} (h : c.startsWith b = true) (hb : b ≠ 0x0A) :
    c.Takes [b] (c.drop 1) := by
  obtain ⟨t, ht⟩ := rest_of_startsWith h
  exact takes_drop (s := [b]) ht (by simpa using hb.symm)

end Cursor

variable {α β : Type} {c d : Cursor}

/-- A read takes a text with its meaning; or it stops in some line, and what stands before that line
is the beginning of a text with a meaning. -/
def Scans (P : Text → α → Prop) (c : Cursor) : Except Error (α × Cursor) → Prop
  | .ok (x, d) => ∃ t, c.Takes t d ∧ P t x
  | .error e => ∃ t u d x, c.Takes t d ∧ d.line = e.line ∧ P (t ++ u) x

namespace Scans

variable {P : Text → α → Prop} {Q : Text → β → Prop} {r : Except Error (α × Cursor)}

theorem of_takes {t : Text} {r : Except Error (β × Cursor)} (h : c.Takes t d) {R : Text → β → Prop}
    (hr : Scans R d r) (hQ : ∀ s x, R s x → Q (t ++ s) x) : Scans Q c r := by
  match r, hr with
  | .ok (x, e), ⟨s, hs, hx⟩ => exact ⟨t ++ s, h.trans hs, hQ s x hx⟩
  | .error e, ⟨s, u, f, x, hs, hline, hx⟩ =>
    refine ⟨t ++ s, u, f, x, h.trans hs, hline, ?_⟩
    rw [List.append_assoc]
    exact hQ _ x hx

/-- What is begun by the first read has to be brought to an end when it fails. -/
theorem bind {f : α × Cursor → Except Error (β × Cursor)} (h : Scans P c r)
    (hend : ∀ t x, P t x → ∃ u y, Q (t ++ u) y)
    (hf : ∀ t x d, c.Takes t d → P t x → Scans Q c (f (x, d))) : Scans Q c (r >>= f) := by
  match r, h with
  | .ok (x, d), ⟨t, ht, hx⟩ => exact hf t x d ht hx
  | .error e, ⟨t, u, d, x, ht, hline, hx⟩ =>
    obtain ⟨more, y, hy⟩ := hend _ x hx
    exact ⟨t, u ++ more, d, y, ht, hline, by simpa using hy⟩

theorem fail {t u : Text} {x : α} (h : c.Takes t d) (hP : P (t ++ u) x) (cause : Cause) :
    Scans P c (d.fail cause) :=
  ⟨t, u, d, x, h, rfl, hP⟩

/-- An error in the line of the cursor says nothing of what stands behind it. -/
theorem fail_here {u : Text} {x : α} (hline : d.line = c.line) (hP : P u x) (cause : Cause) :
    Scans P c (d.fail cause) :=
  ⟨[], u, c, x, .refl c, hline.symm, hP⟩

theorem ok {t : Text} {x : α} (h : c.Takes t d) (hP : P t x) : Scans P c (.ok (x, d)) :=
  ⟨t, h, hP⟩

end Scans

section Gaps

/-- From one cursor to the next over blanks and comments: up to a word, or up to the end of the
text, where a comment may be open. -/
def Cursor.Skips (c d : Cursor) : Prop :=
  ∃ gap, c.Takes gap d ∧
    (Filler gap ∧ (∃ b t, d.rest = b :: t ∧ startsWord b = true) ∨ Written gap [] ∧ d.rest = [])

theorem Cursor.Skips.of_filler {gap : Text} {e : Cursor} (hgap : Filler gap) (h : c.Takes gap d)
    (hskip : d.Skips e) : c.Skips e := by
  obtain ⟨others, hothers, hcases⟩ := hskip
  refine ⟨gap ++ others, h.trans hothers, ?_⟩
  exact hcases.imp (And.imp_left hgap.append) (And.imp_left fun h => h.of_gap hgap)

theorem count_comment {words : Text} (h : 0x0A ∉ words) : (byte '#' :: words).count 0x0A = 0 := by
  refine List.count_eq_zero.mpr fun hmem => ?_
  obtain heq | hmem := List.mem_cons.mp hmem
  · exact absurd heq (by decide)
  · exact h hmem

theorem Cursor.skips_skipBlank (c : Cursor) : c.Skips c.skipBlank := by
  obtain ⟨t, line⟩ := c
  -- A comment is left at once, so the induction is on the length.
  induction hn : t.length using Nat.strong_induction_on generalizing t line with
  | _ n ih =>
    subst hn
    cases t with
    | nil => exact ⟨[], .refl _, .inr ⟨.filler .nil, rfl⟩⟩
    | cons b t =>
      by_cases hline : b = 0x0A
      · subst hline
        have hgap : Filler [0x0A] := .blank (by decide) .nil
        exact (ih t.length (Nat.lt_succ_self _) t (line + 1) rfl).of_filler hgap ⟨rfl, rfl⟩
      by_cases hblank : Text.isBlank b = true
      · have heq : Cursor.skipBlank ⟨b :: t, line⟩ = Cursor.skipBlank ⟨t, line⟩ := by
          rw [skipBlank, blankFrom, if_neg hline, if_neg Bool.false_ne_true, if_pos hblank]
          rfl
        have hgap : Filler [b] := .blank hblank .nil
        rw [heq]
        exact (ih t.length (Nat.lt_succ_self _) t line rfl).of_filler hgap ⟨rfl, by simp [hline]⟩
      by_cases hcomment : b = byte '#'
      · subst hcomment
        obtain ⟨words, rest, rfl, hwords, hend⟩ : ∃ words rest, t = words ++ rest ∧
            0x0A ∉ words ∧ ∀ b ∈ rest.head?, b = 0x0A := by
          refine ⟨_, _, List.takeWhile_append_dropWhile (p := (· != 0x0A)).symm, ?_, ?_⟩
          · intro hmem
            simpa using List.mem_takeWhile_imp hmem
          · intro b hb
            have hend := List.head?_dropWhile_not (· != 0x0A) t
            rw [hb] at hend
            simpa using hend
        have heq := blankFrom_comment hwords line rest
        cases rest with
        | nil =>
          have hrest : (skipBlank ⟨byte '#' :: (words ++ []), line⟩).rest = [] :=
            congrArg Cursor.rest heq
          refine ⟨byte '#' :: words, ⟨?_, ?_⟩, .inr ⟨.comment .nil hwords, hrest⟩⟩
          · rw [hrest, List.cons_append]
          · rw [count_comment hwords]
            exact congrArg Cursor.line heq
        | cons a more =>
          obtain rfl : a = 0x0A := hend a rfl
          have hlength : more.length < (byte '#' :: (words ++ 0x0A :: more)).length := by
            simp only [List.length_cons, List.length_append]
            omega
          have hskip := ih more.length hlength more (line + 1) rfl
          have hcount : (byte '#' :: (words ++ [0x0A])).count 0x0A = 1 := by
            rw [← List.cons_append, List.count_append, count_comment hwords]
            rfl
          rw [show Cursor.skipBlank ⟨byte '#' :: (words ++ 0x0A :: more), line⟩ =
            Cursor.skipBlank ⟨more, line + 1⟩ from heq]
          exact hskip.of_filler (.comment hwords .nil) ⟨by simp, by rw [hcount]⟩
      · have hword : startsWord b = true := by simp [startsWord, hblank, hcomment]
        rw [skipBlank, blankFrom_word hword]
        exact ⟨[], .refl _, .inl ⟨.nil, b, t, rfl, hword⟩⟩

theorem Cursor.skipBlank_skipBlank (c : Cursor) : c.skipBlank.skipBlank = c.skipBlank := by
  obtain ⟨gap, -, ⟨-, b, t, hrest, hb⟩ | ⟨-, hrest⟩⟩ := c.skips_skipBlank
  · generalize c.skipBlank = d at hrest ⊢
    obtain ⟨rest, line⟩ := d
    subst hrest
    exact blankFrom_word hb line t
  · generalize c.skipBlank = d at hrest ⊢
    obtain ⟨rest, line⟩ := d
    subst hrest
    rfl

/-- A comment at the end of the text may end there. -/
theorem Written.exists_filler {gap : Text} (h : Written gap []) : ∃ u, Filler (gap ++ u) := by
  cases h with
  | filler isFiller => exact ⟨[], by simpa using isFiller⟩
  | @comment gap words isFiller oneLine =>
    exact ⟨[0x0A], by simpa using isFiller.append (.comment oneLine .nil)⟩

/-- What is dropped is the beginning of a gap, and a whole one where something follows. -/
theorem Cursor.takes_skipBlank (c : Cursor) :
    ∃ gap u, c.Takes gap c.skipBlank ∧ Filler (gap ++ u) ∧ (c.skipBlank.rest ≠ [] → u = []) := by
  obtain ⟨gap, htake, ⟨hgap, -⟩ | ⟨hgap, hend⟩⟩ := c.skips_skipBlank
  · exact ⟨gap, [], htake, by simpa using hgap, fun _ => rfl⟩
  · obtain ⟨u, hu⟩ := hgap.exists_filler
    exact ⟨gap, u, htake, hu, fun hne => absurd hend hne⟩

theorem Cursor.takes_skipSpaces (c : Cursor) : ∃ s, Spaces s ∧ c.Takes s c.skipSpaces := by
  refine ⟨_, fun b hb => ?_, c.takes_dropWhile (by decide)⟩
  simpa using List.mem_takeWhile_imp hb

end Gaps

section Values

/-- A string with its quotes. -/
def Quoted (t meant : Text) : Prop :=
  ∃ body, Body body meant ∧ t = byte '"' :: (body ++ [byte '"'])

theorem scans_stringFrom (line : ℕ) (out t : Text) :
    Scans (fun s x => ∃ body meant, Body body meant ∧ s = body ++ [byte '"'] ∧
      x = out.reverse ++ meant) ⟨t, line⟩ (stringFrom line out t) := by
  have hopen {line : ℕ} {out t : Text} : Scans (fun s x => ∃ body meant, Body body meant ∧
      s = body ++ [byte '"'] ∧ x = out.reverse ++ meant) ⟨t, line⟩
      (.error ⟨line, .unterminatedString⟩) :=
    .fail_here (d := ⟨t, line⟩) rfl ⟨[], [], .nil, rfl, rfl⟩ .unterminatedString
  have hnext {line line' : ℕ} {out t more written : Text} {b : UInt8} (hb : Character written b)
      (htake : Cursor.Takes ⟨t, line⟩ written ⟨more, line'⟩)
      (ih : Scans (fun s x => ∃ body meant, Body body meant ∧ s = body ++ [byte '"'] ∧
        x = (b :: out).reverse ++ meant) ⟨more, line'⟩ (stringFrom line' (b :: out) more)) :
      Scans (fun s x => ∃ body meant, Body body meant ∧ s = body ++ [byte '"'] ∧
        x = out.reverse ++ meant) ⟨t, line⟩ (stringFrom line' (b :: out) more) := by
    refine ih.of_takes htake ?_
    rintro _ _ ⟨body, meant, isBody, rfl, rfl⟩
    exact ⟨written ++ body, b :: meant, .cons hb isBody, by simp, by simp⟩
  fun_induction stringFrom line out t with
  | case1 => exact hopen
  | case2 line out rest =>
    exact .ok (t := [byte '"']) ⟨rfl, rfl⟩ ⟨[], [], .nil, rfl, by simp⟩
  | case3 => exact hopen
  | case4 line out b rest hquote hend hescape ih =>
    exact hnext (.plain hquote hescape hend) ⟨rfl, by simp [hend]⟩ ih
  | case5 => exact hopen
  | case6 line out b hquote hend hescape e rest ih =>
    obtain rfl : b = byte '\\' := not_not.mp hescape
    refine hnext (.escaped e) ⟨rfl, ?_⟩ ih
    rw [List.count_cons_of_ne hend]
    by_cases he : e = 0x0A <;> simp [he]

theorem scans_string (c : Cursor) : Scans Quoted c (string c) := by
  unfold string
  split
  · next hquote =>
    refine (scans_stringFrom c.line [] (c.rest.drop 1)).of_takes
      (Cursor.takes_of_startsWith hquote (by decide)) ?_
    rintro _ _ ⟨body, meant, isBody, rfl, rfl⟩
    exact ⟨body, isBody, by simp⟩
  · exact .fail_here rfl ⟨[], .nil, rfl⟩ .expectedString

theorem listFrom_nil (hc : c.rest = []) (fuel : ℕ) (found : List Text) :
    listFrom fuel found c = c.fail .expectedBracket := by
  cases fuel with
  | zero => rfl
  | succ fuel => rw [listFrom, if_pos (by simp [hc])]

theorem scans_listFrom {fuel : ℕ} (hfuel : c.rest.length < fuel) (found : List Text) :
    Scans (fun t items => ∃ others, Elements t others ∧ items = found.reverse ++ others) c
      (listFrom fuel found c) := by
  induction fuel generalizing c found with
  | zero => exact absurd hfuel (Nat.not_lt_zero _)
  | succ fuel ih =>
    rw [listFrom]
    split
    · exact .fail_here rfl ⟨[], .close, rfl⟩ .expectedBracket
    split
    · next hclose =>
      exact .ok (Cursor.takes_of_startsWith hclose (by decide)) ⟨[], .close, by simp⟩
    refine (scans_string c).bind ?_ ?_
    · rintro _ meant ⟨body, isBody, rfl⟩
      exact ⟨[byte ']'], _, [meant], by simpa using Elements.last isBody .nil, rfl⟩
    rintro _ meant d htake ⟨body, isBody, rfl⟩
    obtain ⟨gap, u, hgap, isFiller, hwhole⟩ := d.takes_skipBlank
    have htake := htake.trans hgap
    have hlast {u : Text} (isFiller : Filler (gap ++ u)) :
        Elements (byte '"' :: (body ++ [byte '"']) ++ gap ++ (u ++ [byte ']'])) [meant] := by
      simpa using Elements.last isBody isFiller
    dsimp only
    split
    · next hcomma =>
      have hd := Cursor.takes_of_startsWith hcomma (by decide)
      obtain ⟨t, ht⟩ := Cursor.rest_of_startsWith hcomma
      obtain rfl := hwhole (by simp [ht])
      rw [List.append_nil] at isFiller
      obtain ⟨gap', u', hgap', isFiller', hwhole'⟩ := (d.skipBlank.drop 1).takes_skipBlank
      have htake := (htake.trans hd).trans hgap'
      by_cases hend : (d.skipBlank.drop 1).skipBlank.rest = []
      · rw [listFrom_nil hend]
        refine .fail (u := u' ++ [byte ']']) htake ⟨[meant], ?_, rfl⟩ _
        simpa using Elements.cons isBody isFiller isFiller' .close
      · obtain rfl := hwhole' hend
        rw [List.append_nil] at isFiller'
        have hlength : (d.skipBlank.drop 1).skipBlank.rest.length < fuel := by
          have hle := congrArg List.length htake.rest
          simp only [List.length_append, List.length_cons] at hle
          omega
        refine (ih hlength (meant :: found)).of_takes htake ?_
        rintro _ _ ⟨others, elements, rfl⟩
        exact ⟨meant :: others, by simpa using Elements.cons isBody isFiller isFiller' elements,
          by simp⟩
    split
    · next hclose =>
      have hd := Cursor.takes_of_startsWith hclose (by decide)
      obtain ⟨t, ht⟩ := Cursor.rest_of_startsWith hclose
      obtain rfl := hwhole (by simp [ht])
      exact .ok (htake.trans hd) ⟨[meant], by simpa using hlast isFiller, by simp⟩
    · exact .fail htake ⟨[meant], hlast isFiller, rfl⟩ _

/-- A list with its brackets. -/
def Bracketed (t : Text) (items : List Text) : Prop :=
  ∃ gap more, Filler gap ∧ Elements more items ∧ t = byte '[' :: (gap ++ more)

theorem scans_list (hc : c.startsWith (byte '[') = true) : Scans Bracketed c (list c) := by
  have hopen := Cursor.takes_of_startsWith hc (by decide)
  obtain ⟨gap, u, hgap, isFiller, hwhole⟩ := (c.drop 1).takes_skipBlank
  have htake := hopen.trans hgap
  unfold list
  dsimp only
  by_cases hend : (c.drop 1).skipBlank.rest = []
  · rw [listFrom_nil hend]
    refine .fail (u := u ++ [byte ']']) htake ⟨gap ++ u, [byte ']'], isFiller, .close, ?_⟩ _
    simp
  · obtain rfl := hwhole hend
    rw [List.append_nil] at isFiller
    refine (scans_listFrom (Nat.lt_succ_self _) []).of_takes htake ?_
    rintro _ _ ⟨items, elements, rfl⟩
    exact ⟨gap, _, isFiller, elements, rfl⟩

theorem takes_name (c : Cursor) : c.Takes (name c).1 (name c).2 ∧
    ∀ b ∈ (name c).1, isNameByte b = true := by
  have heach : ∀ b ∈ (name c).1, isNameByte b = true := fun b hb => List.mem_takeWhile_imp hb
  refine ⟨Cursor.takes_drop (t := c.rest.dropWhile isNameByte)
    List.takeWhile_append_dropWhile.symm fun hmem => ?_, heach⟩
  exact absurd (heach _ hmem) (by decide)

theorem scans_word (c : Cursor) : Scans Denotes c (value.word c) := by
  obtain ⟨htake, -⟩ := takes_name c
  unfold value.word
  split
  next run d hname =>
  rw [hname] at htake
  split
  · next hrun =>
    subst hrun
    exact .ok htake .yes
  split
  · next hrun =>
    subst hrun
    exact .ok htake .no
  · have hline : d.line = c.line := congrArg (fun read => read.2.line) hname.symm
    exact .fail_here hline .yes _

/-- What is taken as an integer is one that fits. -/
theorem denotes_of_integerOf? {negative : Bool} {digits : Text} {i : ℤ}
    (h : integerOf? negative digits = some i) (heach : ∀ b ∈ digits, Text.isDigit b = true) :
    Denotes ((if negative then [byte '-'] else []) ++ digits) (.integer i) := by
  simp only [integerOf?, Option.ite_none_right_eq_some, Option.some.injEq] at h
  obtain ⟨⟨hne, hrange⟩, rfl⟩ := h
  cases negative with
  | true =>
    simp only [if_true, Int.neg_mul, Int.one_mul] at hrange ⊢
    exact .negative hne heach hrange
  | false =>
    simp only [Bool.false_eq_true, if_false, Int.one_mul] at hrange ⊢
    exact .natural hne heach hrange

theorem scans_integer (c : Cursor) :
    Scans (fun t i => Denotes t (.integer i)) c (integer c) := by
  have hzero : Denotes (utf8 "0") (.integer 0) :=
    .natural (by decide) (by decide +kernel) (by decide)
  unfold integer
  dsimp only
  set negative := c.startsWith (byte '-') with hnegative
  have hsign : c.Takes (if negative then [byte '-'] else [])
      (if negative then c.drop 1 else c) := by
    cases hminus : negative with
    | true => exact Cursor.takes_of_startsWith (hnegative.symm.trans hminus) (by decide)
    | false => exact .refl c
  have hline : (if negative then c.drop 1 else c).line = c.line := by
    split <;> rfl
  generalize (if negative then c.drop 1 else c) = d at hsign hline ⊢
  have heach : ∀ b ∈ d.rest.takeWhile Text.isDigit, Text.isDigit b = true :=
    fun b hb => List.mem_takeWhile_imp hb
  have hdigits : d.Takes (d.rest.takeWhile Text.isDigit)
      (d.drop (d.rest.takeWhile Text.isDigit).length) :=
    Cursor.takes_drop List.takeWhile_append_dropWhile.symm
      fun hmem => absurd (heach _ hmem) (by decide)
  split
  · next i hi => exact .ok (hsign.trans hdigits) (denotes_of_integerOf? hi heach)
  · exact .fail_here (x := 0) hline hzero _

theorem scans_value (c : Cursor) : Scans Denotes c (value c) := by
  -- What comes of a part is a value as well.
  have hlift {α : Type} {P : Text → α → Prop} {r : Except Error (α × Cursor)} {f : α → Value}
      (h : Scans P c r) (hf : ∀ t x, P t x → Denotes t (f x)) :
      Scans Denotes c (r >>= fun p => pure (f p.1, p.2)) :=
    h.bind (fun t x hx => ⟨[], f x, by simpa using hf t x hx⟩)
      fun t x d ht hx => .ok ht (hf t x hx)
  unfold value
  split
  · next b hb =>
    split
    · refine hlift (scans_string c) ?_
      rintro _ _ ⟨body, isBody, rfl⟩
      exact .string isBody
    split
    · next hbracket =>
      refine hlift (scans_list (by simp [Cursor.startsWith, hb, hbracket])) ?_
      rintro _ _ ⟨gap, more, isFiller, elements, rfl⟩
      exact .strings isFiller elements
    split
    · exact hlift (scans_integer c) fun _ _ h => h
    · exact scans_word c
  · exact scans_word c

end Values

section Lines

theorem Cursor.line_skipComment (c : Cursor) : c.skipComment.line = c.line := by
  unfold Cursor.skipComment
  split <;> rfl

theorem Cursor.takes_skipComment (c : Cursor) : ∃ t, c.Takes t c.skipComment := by
  unfold Cursor.skipComment
  split
  · exact ⟨_, c.takes_dropWhile rfl⟩
  · exact ⟨[], .refl c⟩

/-- Looking for the end of a line stays in the line. -/
theorem lineEnd_cases (c : Cursor) :
    (∃ d, lineEnd c = .ok d ∧ LineOver c.rest ∧ d.skipBlank = c.skipBlank ∧ ∃ t, c.Takes t d) ∨
      ∃ e, lineEnd c = .error e ∧ e.line = c.line := by
  cases h : lineEnd c with
  | ok d =>
    obtain ⟨hover, hd⟩ := lineEnd_eq_ok_iff.mp h
    obtain ⟨s, -, hs⟩ := c.takes_skipSpaces
    obtain ⟨t, ht⟩ := c.skipSpaces.takes_skipComment
    exact .inl ⟨d, rfl, hover, skipBlank_of_lineEnd h, s ++ t, hd ▸ hs.trans ht⟩
  | error e =>
    refine .inr ⟨e, rfl, ?_⟩
    unfold lineEnd at h
    dsimp only at h
    split at h
    · cases h
    · obtain rfl := Except.error.inj h
      exact c.skipSpaces.line_skipComment

/-- A read of a line takes a text with its meaning up to the end of the line; or it stops, and what
stands before the line where it stops is the beginning of a text with a meaning. -/
def ScansLine (P : Text → α → Prop) (c : Cursor) : Except Error (α × Cursor) → Prop
  | .ok (x, d) => ∃ t e, c.Takes t e ∧ P t x ∧ LineOver e.rest ∧ d.skipBlank = e.skipBlank ∧
      ∃ s, e.Takes s d
  | .error e => ∃ t u d x, c.Takes t d ∧ d.line = e.line ∧ P (t ++ u) x

/-- Behind the last word of a line the line has to be over. -/
theorem scansLine_lineEnd {P : Text → α → Prop} {t : Text} {x : α} (htake : c.Takes t d)
    (hx : P t x) : ScansLine P c (lineEnd d >>= fun e => pure (x, e)) := by
  obtain ⟨e, he, hover, hskip, hend⟩ | ⟨e, he, hline⟩ := lineEnd_cases d
  · rw [he]
    exact ⟨t, d, htake, hx, hover, hskip, hend⟩
  · rw [he]
    exact ⟨t, [], d, x, htake, hline.symm, by simpa using hx⟩

theorem ScansLine.fail_here {P : Text → α → Prop} {u : Text} {x : α} (hline : d.line = c.line)
    (hP : P u x) (cause : Cause) : ScansLine P c (d.fail cause) :=
  ⟨[], u, c, x, .refl c, hline.symm, hP⟩

/-- A header, and the section that it opens. -/
def Opens (t : Text) (s : Section) : Prop :=
  ∃ title isEntry, States t (.header title isEntry) ∧ s = { name := title, isEntry }

/-- A setting, and its key and value. -/
def Sets (t : Text) (e : Text × Value) : Prop := States t (.setting e.1 e.2)

/-- A name that another line can have where the one at hand is refused. -/
theorem isName_another : IsName (utf8 "a") := by decide +kernel

theorem scansLine_header (hc : c.startsWith (byte '[') = true) : ScansLine Opens c (header c) := by
  have hopen := Cursor.takes_of_startsWith hc (by decide)
  have hanother : Opens _ _ := ⟨_, false, .header isName_another .nil .nil, rfl⟩
  unfold header
  dsimp only
  set isEntry := (c.drop 1).startsWith (byte '[') with hentry
  have hbrackets : c.Takes (brackets (byte '[') isEntry)
      (if isEntry then (c.drop 1).drop 1 else c.drop 1) := by
    cases hsecond : isEntry with
    | true => exact hopen.trans (Cursor.takes_of_startsWith (hentry.symm.trans hsecond) (by decide))
    | false => exact hopen
  have hline : (if isEntry then (c.drop 1).drop 1 else c.drop 1).line = c.line := by
    split <;> rfl
  generalize (if isEntry then (c.drop 1).drop 1 else c.drop 1) = d at hbrackets hline ⊢
  obtain ⟨before, isBefore, hbefore⟩ := d.takes_skipSpaces
  obtain ⟨htitle, heach⟩ := takes_name d.skipSpaces
  have hnamed : (name d.skipSpaces).2.line = c.line := hline
  generalize name d.skipSpaces = read at htitle heach hnamed ⊢
  obtain ⟨title, e⟩ := read
  obtain ⟨after, isAfter, hafter⟩ := e.takes_skipSpaces
  have hspaced : e.skipSpaces.line = c.line := hnamed
  dsimp only
  split
  · exact .fail_here hspaced hanother _
  next hne =>
  split
  · exact .fail_here hspaced hanother _
  next hclose =>
  have hclose := Cursor.takes_of_startsWith (by simpa using hclose) (b := byte ']') (by decide)
  split
  · exact .fail_here (d := e.skipSpaces.drop 1) hspaced hanother _
  next hcloses =>
  have hcloses : e.skipSpaces.Takes (brackets (byte ']') isEntry)
      (if isEntry then (e.skipSpaces.drop 1).drop 1 else e.skipSpaces.drop 1) := by
    cases hsecond : isEntry with
    | true =>
      rw [hsecond] at hcloses
      exact hclose.trans (Cursor.takes_of_startsWith (by simpa using hcloses) (by decide))
    | false => exact hclose
  have htake := hbrackets.trans (hbefore.trans (htitle.trans (hafter.trans hcloses)))
  exact scansLine_lineEnd htake ⟨title, isEntry, .header ⟨hne, heach⟩ isBefore isAfter, rfl⟩

theorem scansLine_setting (c : Cursor) : ScansLine Sets c (setting c) := by
  obtain ⟨hkey, heach⟩ := takes_name c
  have hline : (name c).2.line = c.line := rfl
  have hanother : Sets _ (_, _) := .setting isName_another .nil .nil .yes
  unfold setting
  generalize name c = read at hkey heach hline ⊢
  obtain ⟨key, d⟩ := read
  obtain _ | ⟨b, key⟩ := key
  · exact .fail_here hline hanother _
  obtain ⟨before, isBefore, hbefore⟩ := d.takes_skipSpaces
  dsimp only
  split
  · exact .fail_here (d := d.skipSpaces) hline hanother _
  next hequals =>
  have hequals := Cursor.takes_of_startsWith (by simpa using hequals) (b := byte '=') (by decide)
  obtain ⟨after, isAfter, hafter⟩ := (d.skipSpaces.drop 1).takes_skipSpaces
  have htake := hkey.trans (hbefore.trans (hequals.trans hafter))
  have hsets {text : Text} {v : Value} (denotes : Denotes text v) :
      Sets (b :: key ++ (before ++ ([byte '='] ++ after)) ++ text) (b :: key, v) := by
    have states := States.setting ⟨List.cons_ne_nil b key, heach⟩ isBefore isAfter denotes
    simpa [Sets] using states
  have hvalue := scans_value (d.skipSpaces.drop 1).skipSpaces
  match hread : value (d.skipSpaces.drop 1).skipSpaces, hvalue with
  | .ok (v, e), ⟨text, htext, denotes⟩ =>
    exact scansLine_lineEnd (htake.trans htext) (hsets denotes)
  | .error e, ⟨t, u, f, v, ht, hline, denotes⟩ =>
    exact ⟨_, u, f, (b :: key, v), htake.trans ht, hline, by simpa using hsets denotes⟩

end Lines

section Statements

/-- Where a line is over in front of a word, it is over whatever stands in the place of the word. -/
theorem LineOver.of_word {gap t : Text} {b : UInt8} (hb : startsWord b = true)
    (h : LineOver (gap ++ b :: t)) (u : Text) : LineOver (gap ++ u) := by
  unfold LineOver at h ⊢
  rw [List.dropWhile_append] at h ⊢
  split at h
  · -- The line would be over at the word itself.
    have hspace : (b == 0x20 || b == 0x09) = false := by
      refine Bool.eq_false_iff.mpr fun hspace => ?_
      obtain heq | heq := Bool.or_eq_true_iff.mp hspace <;>
        · rw [beq_iff_eq.mp heq] at hb
          exact absurd hb (by decide)
    rw [List.dropWhile_cons_of_neg (by simp [hspace])] at h
    obtain rfl | rfl | rfl := h b rfl <;> exact absurd hb (by decide)
  · next hne =>
    rw [if_neg hne]
    obtain ⟨a, more, hmore⟩ := List.exists_cons_of_ne_nil fun h => hne (List.isEmpty_iff.mpr h)
    rw [hmore] at h ⊢
    exact h

/-- The statements of a text are read and build a document upon what is there; or the text is
refused, and what stands before the line with the error is the beginning of a written text. Where
the line in front of the text has to be over, it is over there as well. -/
def ScansAll (done : List Section) (current : Section) (c : Cursor) :
    Except Error Document → Prop
  | .ok document => ∃ statements, Written c.rest statements ∧
      document = build done current statements
  | .error e => ∃ t u d statements, c.Takes t d ∧ d.line = e.line ∧ Written (t ++ u) statements ∧
      (LineOver c.rest → LineOver (t ++ u))

variable {done : List Section} {current : Section} {gap : Text}

theorem scansAll_of_statement {text : Text} {s : Statement} {e : Cursor}
    {r : Except Error Document} (isFiller : Filler gap) (hgap : c.Takes gap d)
    (hword : ∃ b t, d.rest = b :: t ∧ startsWord b = true) (htext : d.Takes text e)
    (states : States text s) (hover : LineOver e.rest)
    (hr : ScansAll (s.apply done current).1 (s.apply done current).2 e r) :
    ScansAll done current c r := by
  match r, hr with
  | .ok document, ⟨statements, written, hdocument⟩ =>
    refine ⟨s :: statements, ?_, hdocument⟩
    rw [hgap.rest, htext.rest]
    exact .cons isFiller states hover written
  | .error err, ⟨t, u, f, statements, ht, hline, written, hends⟩ =>
    obtain ⟨b, more, hd, hb⟩ := hword
    refine ⟨gap ++ (text ++ t), u, f, s :: statements, hgap.trans (htext.trans ht), hline, ?_, ?_⟩
    · rw [List.append_assoc, List.append_assoc]
      exact .cons isFiller states (hends hover) written
    · intro hc
      rw [hgap.rest, hd] at hc
      rw [List.append_assoc]
      exact hc.of_word hb _

theorem scansAll_of_refused {e : Error} {t u : Text} {f : Cursor} {s : Statement}
    (isFiller : Filler gap) (hgap : c.Takes gap d)
    (hword : ∃ b t, d.rest = b :: t ∧ startsWord b = true) (ht : d.Takes t f)
    (hline : f.line = e.line) (states : States (t ++ u) s) :
    ScansAll done current c (.error e) := by
  obtain ⟨b, more, hd, hb⟩ := hword
  refine ⟨gap ++ t, u, f, [s], hgap.trans ht, hline, ?_, ?_⟩
  · simpa using Written.cons isFiller states lineOver_nil (.filler .nil)
  · intro hc
    rw [hgap.rest, hd] at hc
    rw [List.append_assoc]
    exact hc.of_word hb _

/-- Blanks in front do not matter. -/
theorem sectionsFrom_congr (h : c.skipBlank = d.skipBlank) (fuel : ℕ) (done : List Section)
    (current : Section) :
    sectionsFrom (fuel + 1) done current c = sectionsFrom (fuel + 1) done current d := by
  rw [sectionsFrom, sectionsFrom, h]

theorem scansAll_sectionsFrom {fuel : ℕ} (hfuel : c.rest.length < fuel) (done : List Section)
    (current : Section) : ScansAll done current c (sectionsFrom fuel done current c) := by
  induction fuel generalizing c done current with
  | zero => exact absurd hfuel (Nat.not_lt_zero _)
  | succ fuel ih =>
    rw [sectionsFrom]
    obtain ⟨gap, hgap, ⟨isFiller, hword⟩ | ⟨written, hend⟩⟩ := c.skips_skipBlank
    · -- Behind the statement the run goes on as it would from the end of its text.
      have hmore {text : Text} {s : Statement} {e f : Cursor}
          (htext : c.skipBlank.Takes text e) (states : States text s) (hover : LineOver e.rest)
          (hskip : f.skipBlank = e.skipBlank) : ScansAll done current c
            (sectionsFrom fuel (s.apply done current).1 (s.apply done current).2 f) := by
        have hlength : e.rest.length < fuel := by
          obtain ⟨a, tail, rfl, -⟩ := states.head
          have hle := congrArg List.length htext.rest
          have hle' := hgap.length_le
          simp only [List.length_append, List.length_cons] at hle
          omega
        obtain ⟨fuel, rfl⟩ := Nat.exists_eq_add_of_lt hlength
        rw [sectionsFrom_congr hskip]
        exact scansAll_of_statement isFiller hgap hword htext states hover (ih hlength _ _)
      obtain ⟨b, t, hb, hstarts⟩ := hword
      dsimp only
      rw [if_neg (by simp [hb])]
      split
      · next hbracket =>
        have hheader := scansLine_header hbracket
        cases hread : header c.skipBlank with
        | ok read =>
          rw [hread] at hheader
          obtain ⟨text, e, htext, ⟨title, isEntry, states, hnext⟩, hover, hskip, -⟩ := hheader
          have hmore := hmore htext states hover hskip
          rw [Statement.apply, ← hnext] at hmore
          exact hmore
        | error e =>
          rw [hread] at hheader
          obtain ⟨t, u, f, _, ht, hline, title, isEntry, states, -⟩ := hheader
          exact scansAll_of_refused isFiller hgap ⟨b, _, hb, hstarts⟩ ht hline states
      · have hsetting := scansLine_setting c.skipBlank
        cases hread : setting c.skipBlank with
        | ok read =>
          rw [hread] at hsetting
          obtain ⟨text, e, htext, states, hover, hskip, -⟩ := hsetting
          exact hmore htext states hover hskip
        | error e =>
          rw [hread] at hsetting
          obtain ⟨t, u, f, _, ht, hline, states⟩ := hsetting
          exact scansAll_of_refused isFiller hgap ⟨b, _, hb, hstarts⟩ ht hline states
    · dsimp only
      rw [if_pos (by simp [hend])]
      refine ⟨[], ?_, rfl⟩
      rw [hgap.rest, hend, List.append_nil]
      exact written

/-- The written texts are read, and no others. -/
theorem parse_eq_ok_iff_written {t : Text} {document : Document} :
    parse t = .ok document ↔
      ∃ statements, Written t statements ∧ document = build [] {} statements := by
  constructor
  · intro h
    have hscan := scansAll_sectionsFrom (c := ⟨t, 1⟩) (Nat.lt_succ_self _) [] {}
    rw [show sectionsFrom _ [] {} ⟨t, 1⟩ = .ok document from h] at hscan
    exact hscan
  · rintro ⟨statements, written, rfl⟩
    exact parse_written written

/-- What stands before the line with the error is the beginning of a written text. -/
theorem exists_written_of_error {t : Text} {e : Error} (h : parse t = .error e) :
    ∃ s u d statements, Cursor.Takes ⟨t, 1⟩ s d ∧ d.line = e.line ∧
      Written (s ++ u) statements := by
  have hscan := scansAll_sectionsFrom (c := ⟨t, 1⟩) (Nat.lt_succ_self _) [] {}
  rw [show sectionsFrom _ [] {} ⟨t, 1⟩ = .error e from h] at hscan
  obtain ⟨s, u, d, statements, hs, hline, written, -⟩ := hscan
  exact ⟨s, u, d, statements, hs, hline, written⟩

end Statements

end NativeBuild.Manifest
