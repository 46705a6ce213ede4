import NativeBuild.Quoting
import NativeBuild.Shell.Word

/-!
# Words that stand for themselves

An argument of a command line is a run of bytes without a meaning for the shell, behind which a
quoted text may stand. Reading such an argument as a word gives its bytes one by one, and nothing
in the word is put in place of anything: the quotes and the backslashes are gone, and what is left
is the text that was quoted.
-/
namespace NativeBuild.Shell

/-- The bytes that have no meaning outside quotes. -/
def isInert (b : UInt8) : Bool :=
  Text.isAlphanumeric b || (utf8 "-_./:=,+@%").contains b

theorem ne_of_isInert {b c : UInt8} (hb : isInert b = true) (hc : isInert c = false) : b ≠ c := by
  rintro rfl
  simp [hb] at hc

theorem not_endsWord_of_isInert {b : UInt8} (hb : isInert b = true) : endsWord b = false := by
  have hends : ∀ c ∈ utf8 " \t\n;&|<>()", isInert c = false := by decide +kernel
  have hmem : ∀ c ∈ utf8 " \t\n;&|<>()", b ≠ c := fun c hc => ne_of_isInert hb (hends c hc)
  have hlist : utf8 " \t\n;&|<>()" = 0x20 :: 0x09 :: 0x0A :: utf8 ";&|<>()" := by decide
  rw [hlist] at hmem
  simp only [List.mem_cons, forall_eq_or_imp] at hmem
  obtain ⟨hspace, htab, hfeed, hrest⟩ := hmem
  have hnot : b ∉ utf8 ";&|<>()" := fun h => hrest b h rfl
  simp [endsWord, hspace, htab, hfeed, hnot]

/-- The quotes escape exactly the bytes that a backslash quotes between them. -/
theorem isEscapable_eq_isSpecial (b : UInt8) : isEscapable b = Quoting.isSpecial b := by
  unfold isEscapable Quoting.isSpecial
  cases b == byte '"' <;> cases b == byte '$' <;> cases b == 0x60 <;> rfl

/-- An argument of a command line, as it is put together: inert bytes, and perhaps a text that
goes between quotes. No byte of it is zero. -/
structure Argument where
  head : Text := []
  value : Option Text := none
  inert : ∀ b ∈ head, isInert b = true
  nonzero : ∀ v ∈ value, 0 ∉ v

namespace Argument

/-- The argument as it stands on the command line. -/
def written (a : Argument) : Text := a.head ++ (a.value.map Quoting.quote).getD []

/-- The text that the argument is for. -/
def meant (a : Argument) : Text := a.head ++ a.value.getD []

end Argument

/-- The parts of a quoted text. -/
def quotedWord (v : Text) : Word := if v = [] then [.emptyQuotes] else v.map (.byte true)

/-- The parts of an argument. -/
def Argument.word (a : Argument) : Word :=
  a.head.map (.byte false) ++ (a.value.map quotedWord).getD []

section Scan

variable {fuel : Nat} {parts : Word} {rest : Text}

/-- An inert byte outside quotes stands for itself. -/
theorem scan_cons_of_isInert {b : UInt8} (hb : isInert b = true) :
    scan (fuel + 1) false parts (b :: rest) = scan fuel false (parts ++ [.byte false b]) rest := by
  have hdollar := ne_of_isInert hb (c := byte '$') (by decide)
  have hback := ne_of_isInert hb (c := 0x60) (by decide)
  have hquote := ne_of_isInert hb (c := byte '"') (by decide)
  have hslash := ne_of_isInert hb (c := byte '\\') (by decide)
  have hsingle := ne_of_isInert hb (c := 0x27) (by decide)
  simp [scan, hdollar, hback, hquote, hslash, hsingle, not_endsWord_of_isInert hb]

/-- Between quotes, every byte that is not special stands for itself. -/
theorem scan_cons_of_not_isSpecial {b : UInt8} (hb : ¬ Quoting.isSpecial b = true) :
    scan (fuel + 1) true parts (b :: rest) = scan fuel true (parts ++ [.byte true b]) rest := by
  simp only [Quoting.isSpecial, Bool.or_eq_true, beq_iff_eq, not_or] at hb
  obtain ⟨⟨⟨hquote, hdollar⟩, hback⟩, hslash⟩ := hb
  simp [scan, hquote, hdollar, hback, hslash]

/-- Between quotes, a backslash lets a special byte stand for itself. -/
theorem scan_backslash {b : UInt8} (hb : Quoting.isSpecial b = true) :
    scan (fuel + 1) true parts (byte '\\' :: b :: rest) =
      scan fuel true (parts ++ [.byte true b]) rest := by
  have hdollar : byte '\\' ≠ byte '$' := by decide
  have hback : byte '\\' ≠ 0x60 := by decide
  have hquote : byte '\\' ≠ byte '"' := by decide
  have hfeed : b ≠ 0x0A := by
    rintro rfl
    exact absurd hb (by decide)
  simp [scan, hdollar, hback, hquote, hfeed, isEscapable_eq_isSpecial, hb]

/-- A double quote closes open quotes; otherwise it opens them, or stands before the quote that
closes them at once. -/
theorem scan_quote_cons (inside : Bool) :
    scan (fuel + 1) inside parts (byte '"' :: rest) =
      if inside = true then scan fuel false parts rest
      else if rest.head? = some (byte '"') then
        scan fuel false (parts ++ [.emptyQuotes]) (rest.drop 1)
      else scan fuel true parts rest := by
  have hdollar : byte '"' ≠ byte '$' := by decide
  have hback : byte '"' ≠ 0x60 := by decide
  simp [scan, hdollar, hback]

/-- A word ends where the text does, or at a byte that ends it. -/
theorem scan_end (h : ∀ b ∈ rest.head?, endsWord b = true) :
    scan (fuel + 1) false parts rest = .ok (parts, rest) := by
  cases rest with
  | nil => simp [scan]
  | cons b rest =>
    have hb : endsWord b = true := h b (by simp)
    have hne : ∀ c, endsWord c = false → b ≠ c := by
      rintro c hc rfl
      simp [hb] at hc
    have hdollar := hne (byte '$') (by decide)
    have hback := hne 0x60 (by decide)
    have hquote := hne (byte '"') (by decide)
    have hslash := hne (byte '\\') (by decide)
    have hsingle := hne 0x27 (by decide)
    simp [scan, hdollar, hback, hquote, hslash, hsingle, hb]

end Scan

theorem escape_cons_of_isSpecial {b : UInt8} (v : Text) (hb : Quoting.isSpecial b = true) :
    Quoting.escape (b :: v) = byte '\\' :: b :: Quoting.escape v := by
  simp [Quoting.escape, hb]

theorem escape_cons_of_not_isSpecial {b : UInt8} (v : Text)
    (hb : ¬ Quoting.isSpecial b = true) : Quoting.escape (b :: v) = b :: Quoting.escape v := by
  simp [Quoting.escape, hb]

/-- An escaped text does not start with a quote. -/
theorem head?_escape (b : UInt8) (v rest : Text) :
    (Quoting.escape (b :: v) ++ rest).head? ≠ some (byte '"') := by
  by_cases hb : Quoting.isSpecial b = true
  · rw [escape_cons_of_isSpecial v hb]
    simp only [List.cons_append, List.head?_cons]
    decide
  · rw [escape_cons_of_not_isSpecial v hb]
    rintro hquote
    obtain rfl : b = byte '"' := by simpa using hquote
    exact hb (by decide)

/-- Inert bytes are read one by one. While the fuel exceeds the length of the text, it lasts. -/
theorem scan_inert (head rest : Text) (h : ∀ b ∈ head, isInert b = true) (parts : Word)
    {fuel : Nat} (hfuel : (head ++ rest).length < fuel) :
    ∃ fuel', rest.length < fuel' ∧
      scan fuel false parts (head ++ rest) =
        scan fuel' false (parts ++ head.map (.byte false)) rest := by
  induction head generalizing parts fuel with
  | nil => exact ⟨fuel, by simpa using hfuel, by simp⟩
  | cons b head ih =>
    obtain ⟨fuel, rfl⟩ : ∃ n, fuel = n + 1 := ⟨fuel - 1, by omega⟩
    have hlength : (head ++ rest).length < fuel := by simpa using hfuel
    obtain ⟨fuel', hfuel', heq⟩ :=
      ih (fun c hc => h c (by simp [hc])) (parts ++ [.byte false b]) hlength
    refine ⟨fuel', hfuel', ?_⟩
    rw [List.cons_append, scan_cons_of_isInert (h b (by simp)), heq]
    simp

/-- Between quotes, an escaped text is read up to the quote that closes it. -/
theorem scan_escape (v rest : Text) (parts : Word) {fuel : Nat}
    (hfuel : (Quoting.escape v ++ byte '"' :: rest).length < fuel) :
    ∃ fuel', rest.length < fuel' ∧
      scan fuel true parts (Quoting.escape v ++ byte '"' :: rest) =
        scan fuel' false (parts ++ v.map (.byte true)) rest := by
  induction v generalizing parts fuel with
  | nil =>
    obtain ⟨fuel, rfl⟩ : ∃ n, fuel = n + 1 := ⟨fuel - 1, by omega⟩
    refine ⟨fuel, by simpa [Quoting.escape] using hfuel, ?_⟩
    rw [show Quoting.escape [] = [] from rfl, List.nil_append, scan_quote_cons, if_pos rfl]
    simp
  | cons b v ih =>
    obtain ⟨fuel, rfl⟩ : ∃ n, fuel = n + 1 := ⟨fuel - 1, by omega⟩
    by_cases hb : Quoting.isSpecial b = true
    · -- The backslash and the byte behind it are read in one step.
      rw [escape_cons_of_isSpecial v hb, List.cons_append, List.cons_append] at hfuel ⊢
      have hlength : (Quoting.escape v ++ byte '"' :: rest).length < fuel := by
        rw [List.length_cons, List.length_cons] at hfuel
        omega
      obtain ⟨fuel', hfuel', heq⟩ := ih (parts ++ [.byte true b]) hlength
      refine ⟨fuel', hfuel', ?_⟩
      rw [scan_backslash hb, heq]
      simp
    · rw [escape_cons_of_not_isSpecial v hb, List.cons_append] at hfuel ⊢
      have hlength : (Quoting.escape v ++ byte '"' :: rest).length < fuel := by
        rw [List.length_cons] at hfuel
        omega
      obtain ⟨fuel', hfuel', heq⟩ := ih (parts ++ [.byte true b]) hlength
      refine ⟨fuel', hfuel', ?_⟩
      rw [scan_cons_of_not_isSpecial hb, heq]
      simp

theorem scan_quote (v rest : Text) (parts : Word) {fuel : Nat}
    (hfuel : (Quoting.quote v ++ rest).length < fuel) :
    ∃ fuel', rest.length < fuel' ∧
      scan fuel false parts (Quoting.quote v ++ rest) =
        scan fuel' false (parts ++ quotedWord v) rest := by
  obtain ⟨fuel, rfl⟩ : ∃ n, fuel = n + 1 := ⟨fuel - 1, by omega⟩
  have hquote : Quoting.quote v ++ rest = byte '"' :: (Quoting.escape v ++ byte '"' :: rest) := by
    simp [Quoting.quote]
  rw [hquote, List.length_cons] at hfuel
  rw [hquote]
  cases v with
  | nil =>
    refine ⟨fuel, ?_, ?_⟩
    · rw [show Quoting.escape [] = [] from rfl, List.nil_append, List.length_cons] at hfuel
      omega
    · exact scan_quote_cons false
  | cons b v =>
    have hlength : (Quoting.escape (b :: v) ++ byte '"' :: rest).length < fuel := by omega
    obtain ⟨fuel', hfuel', heq⟩ := scan_escape (b :: v) rest parts hlength
    refine ⟨fuel', hfuel', ?_⟩
    rw [scan_quote_cons, if_neg Bool.false_ne_true, if_neg (head?_escape b v _), heq]
    rfl

/-- Reading an argument as a word gives its parts, and stops behind it. -/
theorem Argument.word_written (a : Argument) {rest : Text}
    (h : ∀ b ∈ rest.head?, endsWord b = true) :
    Shell.word (a.written ++ rest) = .ok (a.word, rest) := by
  obtain ⟨head, value, inert, nonzero⟩ := a
  unfold Shell.word
  cases value with
  | none =>
    obtain ⟨fuel, hfuel, heq⟩ := scan_inert head rest inert [] (Nat.lt_succ_self _)
    obtain ⟨fuel, rfl⟩ : ∃ n, fuel = n + 1 := ⟨fuel - 1, by omega⟩
    rw [scan_end h] at heq
    simpa [written, word] using heq
  | some v =>
    obtain ⟨fuel, hfuel, heq⟩ :=
      scan_inert head (Quoting.quote v ++ rest) inert [] (Nat.lt_succ_self _)
    obtain ⟨fuel', hfuel', hquote⟩ := scan_quote v rest ([] ++ head.map (.byte false)) hfuel
    obtain ⟨fuel', rfl⟩ : ∃ n, fuel' = n + 1 := ⟨fuel' - 1, by omega⟩
    rw [hquote, scan_end h] at heq
    simpa [written, word] using heq

/-- Nothing in an argument is put in place of anything. -/
theorem literal?_bytes (quoted : Bool) (t : Text) (w : Word) :
    literal? (t.map (.byte quoted) ++ w) = (literal? w).map (t ++ ·) := by
  induction t with
  | nil => simp
  | cons b t ih =>
    have hcons : literal? (.byte quoted b :: (t.map (.byte quoted) ++ w)) =
        (literal? (t.map (.byte quoted) ++ w)).map (b :: ·) := rfl
    rw [List.map_cons, List.cons_append, hcons, ih, Option.map_map]
    rfl

theorem literal?_quotedWord (v : Text) : literal? (quotedWord v) = some v := by
  unfold quotedWord
  split
  · next h => rw [h]; rfl
  · have hbytes := literal?_bytes true v []
    rw [List.append_nil] at hbytes
    rw [hbytes, show literal? [] = some [] from rfl, Option.map_some, List.append_nil]

theorem Argument.literal?_word (a : Argument) : literal? a.word = some a.meant := by
  obtain ⟨head, value, inert, nonzero⟩ := a
  unfold word meant
  rw [literal?_bytes]
  cases value with
  | none => rfl
  | some v => simp [literal?_quotedWord]

/-- An argument that is not empty starts with an inert byte or a quote. -/
theorem Argument.head_written (a : Argument) (h : a.written ≠ []) :
    ∃ b t, a.written = b :: t ∧ (isInert b = true ∨ b = byte '"') := by
  obtain ⟨head, value, inert, nonzero⟩ := a
  cases head with
  | cons b head => exact ⟨b, _, rfl, .inl (inert b (by simp))⟩
  | nil =>
    cases value with
    | none => exact absurd rfl h
    | some v => exact ⟨byte '"', _, rfl, .inr rfl⟩

theorem Argument.zero_not_mem_written (a : Argument) : 0 ∉ a.written := by
  obtain ⟨head, value, inert, nonzero⟩ := a
  have hhead : 0 ∉ head := fun h => absurd (inert 0 h) (by decide)
  have hquote : ∀ v : Text, 0 ∉ v → 0 ∉ Quoting.quote v := by
    intro v hv h
    simp only [Quoting.quote, List.cons_append, List.mem_cons, List.mem_append,
      List.not_mem_nil, or_false] at h
    obtain h | h | h := h
    · exact absurd h (by decide)
    · obtain ⟨b, hb, h⟩ := List.mem_flatMap.mp h
      split at h
      · simp only [List.mem_cons, List.not_mem_nil, or_false] at h
        obtain h | rfl := h
        · exact absurd h (by decide)
        · exact hv hb
      · obtain rfl : 0 = b := by simpa using h
        exact hv hb
    · exact absurd h (by decide)
  unfold written
  cases value with
  | none => simpa using hhead
  | some v =>
    have hv : 0 ∉ Quoting.quote v := hquote v (nonzero v rfl)
    simp [hhead, hv]

end NativeBuild.Shell
