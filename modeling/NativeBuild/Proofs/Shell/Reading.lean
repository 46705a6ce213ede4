import NativeBuild.Proofs.Shell.Words
import NativeBuild.Shell.Command

/-!
# Reading a line of arguments

A line that starts with a quoted word, and has arguments behind it with a space before each, is one
simple command: no word of it is a keyword, an assignment or a redirection, and nothing of the line
is left unread.
-/
namespace NativeBuild.Shell

namespace Argument

/-- Arguments behind the first word of a line: a space stands before each. -/
def behind (as : List Argument) : Text := as.flatMap fun a => 0x20 :: a.written

@[simp] theorem behind_nil : behind [] = [] := rfl

@[simp] theorem behind_cons (a : Argument) (as : List Argument) :
    behind (a :: as) = 0x20 :: (a.written ++ behind as) := by
  simp [behind]

/-- What stands behind a word ends it. -/
theorem endsWord_behind (as : List Argument) : ∀ b ∈ (behind as).head?, endsWord b = true := by
  cases as with
  | nil => simp
  | cons a as =>
    rintro b hb
    obtain rfl : 0x20 = b := by simpa using hb
    decide

theorem length_le_behind (as : List Argument) : as.length ≤ (behind as).length := by
  induction as with
  | nil => simp
  | cons a as ih =>
    simp only [behind_cons, List.length_cons, List.length_append]
    omega

/-- The byte that an argument starts with is neither blank nor an operator, and starts neither a
comment nor a joined line. -/
theorem starts (a : Argument) (h : a.written ≠ []) :
    ∃ b t, a.written = b :: t ∧ endsWord b = false ∧ b ≠ 0x20 ∧ b ≠ 0x09 ∧ b ≠ 0x0A ∧
      b ≠ byte '\\' ∧ b ≠ byte '#' := by
  obtain ⟨b, t, heq, hb⟩ := a.head_written h
  refine ⟨b, t, heq, ?_⟩
  obtain hb | rfl := hb
  · exact ⟨not_endsWord_of_isInert hb, ne_of_isInert hb (by decide),
      ne_of_isInert hb (by decide), ne_of_isInert hb (by decide),
      ne_of_isInert hb (by decide), ne_of_isInert hb (by decide)⟩
  · decide

end Argument

open Argument

section Words

/-- One step of splitting: blanks are dropped, and an argument is read. -/
theorem wordsFrom_written {t rest : Text} {a : Argument} (fuel : Nat)
    (ht : (t.dropWhile fun b => b == 0x20 || b == 0x09) = a.written ++ rest)
    (h : a.written ≠ []) (hrest : ∀ b ∈ rest.head?, endsWord b = true) :
    wordsFrom (fuel + 1) t = (wordsFrom fuel rest).map (a.meant :: ·) := by
  obtain ⟨b, s, heq, hb, -⟩ := a.starts h
  have hword := a.word_written hrest
  rw [wordsFrom, ht]
  rw [heq, List.cons_append] at hword ⊢
  simp only [hb, Bool.false_eq_true, if_false, hword, Except.toOption, Option.bind_eq_bind,
    Option.bind_some, a.literal?_word]
  cases wordsFrom fuel rest <;> rfl

theorem wordsFrom_behind {as : List Argument} (h : ∀ a ∈ as, a.written ≠ []) {fuel : Nat}
    (hfuel : as.length < fuel) : wordsFrom fuel (behind as) = some (as.map (·.meant)) := by
  induction as generalizing fuel with
  | nil =>
    obtain ⟨fuel, rfl⟩ : ∃ n, fuel = n + 1 := ⟨fuel - 1, by omega⟩
    rfl
  | cons a as ih =>
    obtain ⟨fuel, rfl⟩ : ∃ n, fuel = n + 1 := ⟨fuel - 1, by omega⟩
    have ha := h a (by simp)
    obtain ⟨b, t, heq, -, hspace, htab, -⟩ := a.starts ha
    have hdrop : (behind (a :: as)).dropWhile (fun b => b == 0x20 || b == 0x09) =
        a.written ++ behind as := by
      rw [behind_cons, heq]
      simp [hspace, htab]
    rw [wordsFrom_written fuel hdrop ha (endsWord_behind as),
      ih (fun c hc => h c (by simp [hc])) (by simpa using hfuel)]
    rfl

theorem words?_line {a : Argument} (ha : a.written ≠ []) {as : List Argument}
    (h : ∀ a ∈ as, a.written ≠ []) :
    words? (a.written ++ behind as) = some (a.meant :: as.map (·.meant)) := by
  have hlength := length_le_behind as
  obtain ⟨b, t, heq, -, hspace, htab, -⟩ := a.starts ha
  have hdrop : (a.written ++ behind as).dropWhile (fun b => b == 0x20 || b == 0x09) =
      a.written ++ behind as := by
    rw [heq]
    simp [hspace, htab]
  have hpos : 0 < a.written.length := List.length_pos_iff.mpr ha
  unfold words?
  rw [wordsFrom_written _ hdrop ha (endsWord_behind as),
    wordsFrom_behind h (by rw [List.length_append]; omega)]
  rfl

end Words

namespace Reader

theorem skipBlanks_cons {b : UInt8} (hspace : b ≠ 0x20) (htab : b ≠ 0x09) (hslash : b ≠ byte '\\')
    (t : Text) : skipBlanks (b :: t) = b :: t := by
  cases t with
  | nil => simp [skipBlanks, hspace, htab]
  | cons c t => simp [skipBlanks, hspace, htab, hslash]

theorem skip_written (whole : Text) {a : Argument} (ha : a.written ≠ []) (rest : Text) :
    Cursor.skip ⟨whole, a.written ++ rest⟩ = ⟨whole, a.written ++ rest⟩ := by
  obtain ⟨b, t, heq, -, hspace, htab, -, hslash, hhash⟩ := a.starts ha
  unfold Cursor.skip
  rw [heq, List.cons_append, skipBlanks_cons hspace htab hslash]
  simp [skipComment, hhash]

/-- Between words, the reader goes to the next argument. -/
theorem skip_space (whole : Text) {a : Argument} (ha : a.written ≠ []) (rest : Text) :
    Cursor.skip ⟨whole, 0x20 :: (a.written ++ rest)⟩ = ⟨whole, a.written ++ rest⟩ := by
  obtain ⟨b, t, heq, -⟩ := a.starts ha
  have hskip := skip_written whole ha rest
  rw [heq, List.cons_append] at hskip ⊢
  exact hskip

/-- A text whose first byte behind its leading digits is no angle bracket. -/
def IsPlain (t : Text) : Prop :=
  ∀ b ∈ (t.dropWhile Text.isDigit).head?, b ≠ byte '<' ∧ b ≠ byte '>'

theorem isPlain_written (a : Argument) (as : List Argument) :
    IsPlain (a.written ++ behind as) := by
  obtain ⟨head, value, inert, nonzero⟩ := a
  have hbehind : IsPlain (behind as) := by
    cases as with
    | nil => simp [IsPlain]
    | cons c as =>
      rintro b hb
      rw [behind_cons] at hb
      obtain rfl : 0x20 = b := by simpa [Text.isDigit] using hb
      decide
  unfold written
  rw [List.append_assoc]
  induction head with
  | nil =>
    cases value with
    | none => exact hbehind
    | some v =>
      rintro b hb
      obtain rfl : byte '"' = b := by
        simpa [Quoting.quote, show Text.isDigit (byte '"') = false by decide] using hb
      decide
  | cons b head ih =>
    by_cases hdigit : Text.isDigit b = true
    · rw [List.cons_append]
      unfold IsPlain
      rw [List.dropWhile_cons_of_pos hdigit]
      exact ih fun c hc => inert c (by simp [hc])
    · rintro c hc
      rw [List.cons_append, List.dropWhile_cons_of_neg hdigit] at hc
      obtain rfl : b = c := by simpa using hc
      have hb := inert b (by simp)
      exact ⟨ne_of_isInert hb (by decide), ne_of_isInert hb (by decide)⟩

theorem redirection?_of_isPlain (c : Cursor) (h : IsPlain c.rest) : redirection? c = .ok none := by
  have hdrop : (c.drop (c.rest.takeWhile Text.isDigit).length).rest =
      c.rest.dropWhile Text.isDigit := by
    have happend := List.takeWhile_append_dropWhile (p := Text.isDigit) (l := c.rest)
    calc (c.drop (c.rest.takeWhile Text.isDigit).length).rest
        = (c.rest.takeWhile Text.isDigit ++ c.rest.dropWhile Text.isDigit).drop
            (c.rest.takeWhile Text.isDigit).length := by rw [happend]; rfl
      _ = c.rest.dropWhile Text.isDigit := List.drop_left
  have hstarts : ∀ t : String, (utf8 t).head? = some (byte '<') ∨ (utf8 t).head? = some (byte '>') →
      (c.drop (c.rest.takeWhile Text.isDigit).length).startsWith t = false := by
    intro t ht
    unfold Cursor.startsWith
    rw [hdrop]
    unfold IsPlain at h
    cases hrest : c.rest.dropWhile Text.isDigit with
    | nil =>
      cases hutf : utf8 t with
      | nil => simp [hutf] at ht
      | cons d t => rfl
    | cons b rest =>
      have hb := h b (by simp [hrest])
      cases hutf : utf8 t with
      | nil => simp [hutf] at ht
      | cons d t =>
        rw [hutf] at ht
        have hne : d ≠ b := by
          rintro rfl
          obtain ht | ht := ht
          · exact hb.1 (by simpa using ht)
          · exact hb.2 (by simpa using ht)
        simp [List.isPrefixOf, hne]
  have happend := hstarts ">>" (by decide)
  have hduplicate := hstarts ">&" (by decide)
  have hforce := hstarts ">|" (by decide)
  have hwrite := hstarts ">" (by decide)
  have hread := hstarts "<" (by decide)
  unfold redirection?
  simp only [happend, hduplicate, hforce, hwrite, hread]
  split <;> rfl

/-- One step of a simple command: an argument becomes its next word. -/
theorem simple_written {whole : Text} {c : Cursor} {a : Argument} {as : List Argument}
    (ha : a.written ≠ []) (hc : c.skip = ⟨whole, a.written ++ behind as⟩) (fuel : Nat) (s : Simple)
    (hname : s.words = [] → assignedName? ⟨whole, a.written ++ behind as⟩ = none) :
    simple (fuel + 1) s c =
      simple fuel { s with words := s.words ++ [a.word] } ⟨whole, behind as⟩ := by
  have hredirection :=
    redirection?_of_isPlain ⟨whole, a.written ++ behind as⟩ (isPlain_written a as)
  have hends : (a.written ++ behind as).head?.all endsWord = false := by
    obtain ⟨b, t, heq, hb, -⟩ := a.starts ha
    simp [heq, hb]
  have hassigned :
      (if s.words.isEmpty then assignedName? ⟨whole, a.written ++ behind as⟩ else none) = none := by
    split
    · next h => exact hname (List.isEmpty_iff.mp h)
    · rfl
  have hword : Cursor.word ⟨whole, a.written ++ behind as⟩ = .ok (a.word, ⟨whole, behind as⟩) := by
    unfold Cursor.word
    rw [a.word_written (endsWord_behind as)]
    rfl
  rw [simple]
  simp only [hc, hredirection, hends, hassigned, hword, bind, Except.bind, Bool.false_eq_true,
    if_false]

theorem simple_behind (whole : Text) {as : List Argument} (h : ∀ a ∈ as, a.written ≠ [])
    {s : Simple} (hs : s.words ≠ []) {fuel : Nat} (hfuel : as.length < fuel) :
    simple fuel s ⟨whole, behind as⟩ =
      .ok ({ s with words := s.words ++ as.map (·.word) }, ⟨whole, []⟩) := by
  induction as generalizing fuel s with
  | nil =>
    obtain ⟨fuel, rfl⟩ : ∃ n, fuel = n + 1 := ⟨fuel - 1, by omega⟩
    have hredirection := redirection?_of_isPlain ⟨whole, []⟩ (by simp [IsPlain])
    have hskip : Cursor.skip ⟨whole, []⟩ = ⟨whole, []⟩ := rfl
    rw [simple, behind_nil, hskip, hredirection]
    simp [bind, Except.bind, pure, Except.pure]
  | cons a as ih =>
    obtain ⟨fuel, rfl⟩ : ∃ n, fuel = n + 1 := ⟨fuel - 1, by omega⟩
    have ha := h a (by simp)
    rw [behind_cons, simple_written ha (skip_space whole ha _) fuel s (fun hnil => absurd hnil hs),
      ih (fun c hc => h c (by simp [hc])) (by simp) (by simpa using hfuel)]
    simp

section Quoted

variable {c : Cursor} {t : Text} (hc : c.rest = byte '"' :: t)
include hc

theorem head?_raw_of_quote : c.raw.head? = some (byte '"') := by
  have hends : endsWord (byte '"') = false := by decide
  simp [Cursor.raw, hc, hends]

/-- A quoted word is none of the keywords. -/
theorem isAt_of_quote (keyword : String) (h : (utf8 keyword).head? ≠ some (byte '"')) :
    c.isAt keyword = false := by
  have hne : c.raw ≠ utf8 keyword := by
    intro heq
    exact h (heq ▸ head?_raw_of_quote hc)
  simpa [Cursor.isAt] using hne

theorem not_isClosing_of_quote : isClosing c.raw = false := by
  have hwords : ∀ w ∈ [utf8 "then", utf8 "else", utf8 "elif", utf8 "fi", utf8 "do", utf8 "done",
      utf8 "esac", utf8 "\x7d"], w.head? ≠ some (byte '"') := by decide
  have hmem : c.raw ∉ [utf8 "then", utf8 "else", utf8 "elif", utf8 "fi", utf8 "do", utf8 "done",
      utf8 "esac", utf8 "\x7d"] := fun h => hwords c.raw h (head?_raw_of_quote hc)
  simpa [isClosing] using hmem

theorem startsWith_of_quote (sign : String) (h : (utf8 sign).head?.any (· != byte '"') = true) :
    c.startsWith sign = false := by
  unfold Cursor.startsWith
  rw [hc]
  cases hutf : utf8 sign with
  | nil => simp [hutf] at h
  | cons b rest =>
    have hb : b ≠ byte '"' := by simpa [hutf] using h
    simp [List.isPrefixOf, hb]

/-- A quoted word starts no compound command. -/
theorem compound_of_quote (fuel : Nat) : compound (fuel + 1) c = .ok none := by
  rw [compound]
  simp only [startsWith_of_quote hc "(" (by decide),
    isAt_of_quote hc "\x7b" (by decide),
    isAt_of_quote hc "if" (by decide),
    isAt_of_quote hc "while" (by decide),
    isAt_of_quote hc "until" (by decide),
    isAt_of_quote hc "for" (by decide),
    isAt_of_quote hc "case" (by decide)]
  rfl

theorem assignedName?_of_quote : assignedName? c = none := by
  have hname : isNameByte (byte '"') = false := by decide
  unfold assignedName?
  rw [hc]
  simp [hname]

end Quoted

section Line

variable {a : Argument} {t : Text} (ha : a.written = byte '"' :: t) {as : List Argument}
  (h : ∀ a ∈ as, a.written ≠ [])
include ha h

theorem command_line (whole : Text) (fuel : Nat) :
    command (fuel + 2) ⟨whole, a.written ++ behind as⟩ =
      .ok (.simple (Cursor.line ⟨whole, a.written ++ behind as⟩) []
        (a.word :: as.map (·.word)) [], ⟨whole, []⟩) := by
  have hc : (Cursor.mk whole (a.written ++ behind as)).rest = byte '"' :: (t ++ behind as) := by
    simp [ha]
  have hne : a.written ≠ [] := by simp [ha]
  have hlength : as.length ≤ (behind as).length := length_le_behind as
  have hfirst := simple_written hne (skip_written whole hne (behind as))
    (a.written ++ behind as).length {} (fun _ => assignedName?_of_quote hc)
  have hfuel : as.length < (a.written ++ behind as).length := by
    simp only [ha, List.cons_append, List.length_cons, List.length_append]
    omega
  have hothers := simple_behind whole h (s := { words := [a.word] }) (by simp) hfuel
  have hsimple := hfirst.trans hothers
  rw [command, compound_of_quote hc]
  simp only [not_isClosing_of_quote hc, hsimple, bind, Except.bind, Bool.false_eq_true, if_false]
  rfl

/-- The one command of the line, at each level of the grammar. -/
theorem conditional_line (whole : Text) (fuel : Nat) :
    conditional (fuel + 4) ⟨whole, a.written ++ behind as⟩ =
      .ok (.simple (Cursor.line ⟨whole, a.written ++ behind as⟩) []
        (a.word :: as.map (·.word)) [], ⟨whole, []⟩) := by
  have hc : (Cursor.mk whole (a.written ++ behind as)).rest = byte '"' :: (t ++ behind as) := by
    simp [ha]
  have hskip := skip_written whole (a := a) (by simp [ha]) (behind as)
  have hnegated := isAt_of_quote hc "!" (by decide)
  have hpipeline : pipeline (fuel + 3) ⟨whole, a.written ++ behind as⟩ =
      .ok (.simple (Cursor.line ⟨whole, a.written ++ behind as⟩) []
        (a.word :: as.map (·.word)) [], ⟨whole, []⟩) := by
    rw [pipeline]
    simp only [hskip, hnegated, Bool.false_eq_true, if_false, command_line ha h, bind, Except.bind]
    rfl
  rw [conditional, hpipeline]
  rfl

theorem next?_line :
    next? ⟨a.written ++ behind as, a.written ++ behind as⟩ =
      .ok (some (.sequence [.simple 1 [] (a.word :: as.map (·.word)) []],
        ⟨a.written ++ behind as, []⟩)) := by
  have hskip := skip_written (a.written ++ behind as) (a := a) (by simp [ha]) (behind as)
  have hconditional := conditional_line ha h (a.written ++ behind as)
    (8 * (a.written ++ behind as).length + 59)
  generalize hline : a.written ++ behind as = line at hskip hconditional ⊢
  have hc : (Cursor.mk line line).rest = byte '"' :: (t ++ behind as) := by
    simp [← hline, ha]
  have hempty : line.isEmpty = false := by simp [← hline, ha]
  have hnumber : Cursor.line ⟨line, line⟩ = 1 := by simp [Cursor.line]
  have hlines : Cursor.skipNewlines ⟨line, line⟩ = ⟨line, line⟩ := by
    unfold Cursor.skipNewlines skipLines
    simp only [hskip]
    rw [show line = byte '"' :: (t ++ behind as) from hc]
    rfl
  have hlist : list (8 * line.length + 64) true [] ⟨line, line⟩ =
      .ok (.sequence [.simple 1 [] (a.word :: as.map (·.word)) []], ⟨line, []⟩) := by
    rw [list]
    simp only [hskip, hempty, startsWith_of_quote hc ")" (by decide),
      startsWith_of_quote hc ";;" (by decide),
      startsWith_of_quote hc "\n" (by decide), not_isClosing_of_quote hc, if_true,
      Bool.or_false, Bool.and_false, Bool.false_eq_true, if_false, hconditional, hnumber, bind,
      Except.bind]
    rfl
  unfold next?
  simp only [hlines, hempty, Bool.false_eq_true, if_false, hlist, bind, Except.bind]
  rfl

end Line

end Reader

end NativeBuild.Shell
