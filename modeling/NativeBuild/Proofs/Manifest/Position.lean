import Mathlib.Tactic.SplitIfs
import NativeBuild.Proofs.Manifest.Acceptance

/-!
# The line of an error

What is read within the first lines of a text depends on these lines only: on two texts that are the
same up to the end of a line, the reader goes the same way until it leaves that line. So an error is
found in every text with the same lines up to the one that it names, while what stands before that
line is the beginning of a text that is read.
-/
namespace NativeBuild.Manifest

/-- The first `n` lines of a text, with their line feeds. -/
def firstLines : ℕ → Text → Text
  | 0, _ => []
  | _ + 1, [] => []
  | n + 1, b :: t => b :: firstLines (if b = 0x0A then n else n + 1) t

/-- A text goes over its first lines, of which it has ended as many. -/
theorem exists_firstLines_append {s : Text} {n : ℕ} (hs : s.count 0x0A = n) (t : Text) :
    ∃ more, s = firstLines n (s ++ t) ++ more := by
  induction s generalizing n with
  | nil =>
    obtain rfl : 0 = n := hs
    exact ⟨[], by simp [firstLines]⟩
  | cons b s ih =>
    cases n with
    | zero => exact ⟨b :: s, by simp [firstLines]⟩
    | succ n =>
      have hcount : s.count 0x0A = if b = 0x0A then n else n + 1 := by
        rw [List.count_cons] at hs
        by_cases hb : b = 0x0A
        · simpa [hb] using hs
        · simpa [hb] using hs
      obtain ⟨more, hmore⟩ := ih hcount
      exact ⟨more, by rw [List.cons_append, firstLines, List.cons_append, ← hmore]⟩

/-- A line that has an end ends with a line feed. -/
theorem exists_firstLines_eq {t : Text} {n : ℕ} (h : n < t.count 0x0A) :
    ∃ a r, firstLines (n + 1) t = a ++ [0x0A] ∧ t = a ++ 0x0A :: r ∧ a.count 0x0A = n := by
  induction t generalizing n with
  | nil => simp at h
  | cons b t ih =>
    rw [firstLines]
    by_cases hb : b = 0x0A
    · subst hb
      cases n with
      | zero => exact ⟨[], t, by simp [firstLines], rfl, rfl⟩
      | succ n =>
        obtain ⟨a, r, hlines, ht, ha⟩ := ih (n := n) (by simpa using h)
        exact ⟨0x0A :: a, r, by simp [hlines], by rw [ht]; rfl, by simp [ha]⟩
    · obtain ⟨a, r, hlines, ht, ha⟩ := ih (n := n) (by simpa [hb] using h)
      exact ⟨b :: a, r, by simp [hb, hlines], by rw [ht]; rfl, by simp [hb, ha]⟩

/-- Two cursors before the end of line `n`, up to which their texts are the same. -/
inductive Cursor.Agree (n : ℕ) : Cursor → Cursor → Prop where
  | mk {a r r' : Text} {line : ℕ} (h : line + a.count 0x0A = n) :
      Agree n ⟨a ++ 0x0A :: r, line⟩ ⟨a ++ 0x0A :: r', line⟩

variable {α β : Type} {n : ℕ} {c c' : Cursor}

namespace Cursor.Agree

theorem line_eq (h : c.Agree n c') : c.line = c'.line := by
  obtain ⟨-⟩ := h
  rfl

theorem head?_eq (h : c.Agree n c') : c.rest.head? = c'.rest.head? := by
  obtain @⟨a, r, r', line, -⟩ := h
  cases a <;> rfl

theorem startsWith_eq (h : c.Agree n c') (b : UInt8) : c.startsWith b = c'.startsWith b := by
  rw [startsWith, h.head?_eq, startsWith]

theorem isEmpty_eq_false (h : c.Agree n c') : c.rest.isEmpty = false := by
  obtain @⟨a, r, r', line, -⟩ := h
  simp

theorem symm (h : c.Agree n c') : c'.Agree n c := by
  obtain ⟨h⟩ := h
  exact .mk h

theorem drop_one {b : UInt8} (h : c.Agree n c') (hb : c.startsWith b = true) (hne : b ≠ 0x0A) :
    (c.drop 1).Agree n (c'.drop 1) := by
  obtain @⟨a, r, r', line, h⟩ := h
  cases a with
  | nil =>
    have heq : 0x0A = b := by simpa [startsWith] using hb
    exact absurd heq.symm hne
  | cons a more =>
    have ha : a = b := by simpa [startsWith] using hb
    subst ha
    exact .mk (by simpa [hne] using h)

/-- A run of bytes without a line feed is the same for both. -/
theorem run {p : UInt8 → Bool} (hp : p 0x0A = false) (h : c.Agree n c') :
    c.rest.takeWhile p = c'.rest.takeWhile p ∧
      Agree n { c with rest := c.rest.dropWhile p } { c' with rest := c'.rest.dropWhile p } := by
  obtain @⟨a, r, r', line, h⟩ := h
  induction a with
  | nil => simpa [hp] using Agree.mk (a := []) h
  | cons b a ih =>
    by_cases hb : p b = true
    · have hne : b ≠ 0x0A := by
        rintro rfl
        rw [hp] at hb
        exact Bool.noConfusion hb
      obtain ⟨htake, hdrop⟩ := ih (by simpa [hne] using h)
      simpa [hb] using And.intro htake hdrop
    · simpa [hb] using Agree.mk (a := b :: a) h

theorem skipSpaces (h : c.Agree n c') : c.skipSpaces.Agree n c'.skipSpaces := (h.run rfl).2

theorem skipComment (h : c.Agree n c') : c.skipComment.Agree n c'.skipComment := by
  unfold Cursor.skipComment
  rw [h.startsWith_eq]
  split
  · exact (h.run rfl).2
  · exact h

theorem drop_run {p : UInt8 → Bool} (hp : p 0x0A = false) (h : c.Agree n c') :
    (c.drop (c.rest.takeWhile p).length).Agree n (c'.drop (c'.rest.takeWhile p).length) := by
  have heq (c : Cursor) : c.drop (c.rest.takeWhile p).length =
      { c with rest := c.rest.dropWhile p } := by
    have hdrop : (c.rest.takeWhile p ++ c.rest.dropWhile p).drop (c.rest.takeWhile p).length =
        c.rest.dropWhile p := List.drop_left
    rw [List.takeWhile_append_dropWhile] at hdrop
    rw [Cursor.drop, hdrop]
  rw [heq, heq]
  exact (h.run hp).2

theorem name (h : c.Agree n c') :
    (name c).1 = (Manifest.name c').1 ∧ (Manifest.name c).2.Agree n (Manifest.name c').2 :=
  ⟨(h.run rfl).1, h.drop_run rfl⟩

end Cursor.Agree

/-- The line in which a read ends. -/
def endLine : Except Error (α × Cursor) → ℕ
  | .ok (_, d) => d.line
  | .error e => e.line

theorem Scans.line_le {P : Text → α → Prop} {r : Except Error (α × Cursor)} (h : Scans P c r) :
    c.line ≤ endLine r := by
  match r, h with
  | .ok _, ⟨t, ht, _⟩ => exact ht.line_le
  | .error _, ⟨t, _, _, _, ht, hline, _⟩ => exact ht.line_le.trans_eq hline

/-- A read that ends before line `n` does has a twin, and both texts are still the same where they
end. -/
def Follows (n : ℕ) (r r' : Except Error (α × Cursor)) : Prop :=
  match r with
  | .ok (x, d) => d.line ≤ n → ∃ d', r' = .ok (x, d') ∧ d.Agree n d'
  | .error e => e.line ≤ n → r' = .error e

namespace Follows

theorem bind {r r' : Except Error (α × Cursor)}
    {f f' : α × Cursor → Except Error (β × Cursor)} (h : Follows n r r')
    (hline : ∀ x d, r = .ok (x, d) → d.line ≤ endLine (f (x, d)))
    (hf : ∀ x d d', r = .ok (x, d) → r' = .ok (x, d') → d.Agree n d' →
      Follows n (f (x, d)) (f' (x, d'))) :
    Follows n (r >>= f) (r' >>= f') := by
  match r, h with
  | .error e, h =>
    intro he
    rw [h he]
    rfl
  | .ok (x, d), h =>
    have hd := hline x d rfl
    have hread := hf x d
    change Follows n (f (x, d)) (r' >>= f')
    match hr : f (x, d) with
    | .ok (y, e) =>
      rw [hr] at hd hread
      intro he
      obtain ⟨d', hr', hagree⟩ := h (hd.trans he)
      obtain ⟨e', hf', hends⟩ := hread d' rfl hr' hagree he
      rw [hr']
      exact ⟨e', hf', hends⟩
    | .error e =>
      rw [hr] at hd hread
      intro he
      obtain ⟨d', hr', hagree⟩ := h (hd.trans he)
      rw [hr']
      exact hread d' rfl hr' hagree he

theorem ok (x : α) (h : c.Agree n c') : Follows n (.ok (x, c)) (.ok (x, c')) :=
  fun _ => ⟨c', rfl, h⟩

theorem fail (h : c.line = c'.line) (cause : Cause) :
    Follows (α := α) n (c.fail cause) (c'.fail cause) := by
  intro
  unfold Cursor.fail
  rw [h]

theorem past {r r' : Except Error (α × Cursor)} (h : n < endLine r) : Follows n r r' := by
  match r, h with
  | .ok _, h => exact fun hle => absurd h (Nat.not_lt.mpr hle)
  | .error _, h => exact fun hle => absurd h (Nat.not_lt.mpr hle)

end Follows

section Values

/-- Behind the end of line `n` the cursors need not agree. -/
theorem agree_blankFrom (inside : Bool) {line : ℕ} {a : Text} (h : line + a.count 0x0A = n)
    (r r' : Text) (hle : (blankFrom inside line (a ++ 0x0A :: r)).line ≤ n) :
    (blankFrom inside line (a ++ 0x0A :: r)).Agree n (blankFrom inside line (a ++ 0x0A :: r')) := by
  induction a generalizing inside line with
  | nil =>
    obtain ⟨gap, htake, -⟩ := Cursor.skips_skipBlank ⟨r, line + 1⟩
    have hline : line + 1 ≤ (blankFrom false (line + 1) r).line := htake.line_le
    rw [List.nil_append, blankFrom, if_pos rfl] at hle
    rw [List.count_nil] at h
    omega
  | cons b a ih =>
    rw [List.cons_append, blankFrom] at hle ⊢
    rw [List.cons_append, blankFrom]
    rw [List.count_cons] at h
    by_cases hb : b = 0x0A
    · rw [if_pos hb] at hle ⊢
      rw [if_pos hb]
      refine ih false ?_ hle
      simp only [hb, beq_self_eq_true, if_true] at h
      omega
    have hcount : line + a.count 0x0A = n := by simpa [hb] using h
    rw [if_neg hb] at hle ⊢
    rw [if_neg hb]
    split_ifs at hle ⊢
    · exact ih true hcount hle
    · exact ih false hcount hle
    · exact ih true hcount hle
    · exact .mk (a := b :: a) (by rwa [List.count_cons])

theorem Cursor.Agree.skipBlank (h : c.Agree n c') (hle : c.skipBlank.line ≤ n) :
    c.skipBlank.Agree n c'.skipBlank := by
  obtain ⟨h⟩ := h
  exact agree_blankFrom false h _ _ hle

theorem Follows.of_skipBlank {r r' : Except Error (α × Cursor)} (h : c.Agree n c')
    (hline : c.skipBlank.line ≤ endLine r)
    (hr : c.skipBlank.Agree n c'.skipBlank → Follows n r r') : Follows n r r' := by
  by_cases hle : c.skipBlank.line ≤ n
  · exact hr (h.skipBlank hle)
  · exact .past (Nat.lt_of_lt_of_le (Nat.lt_of_not_le hle) hline)

theorem follows_stringFrom (h : c.Agree n c') (out : Text) :
    Follows n (stringFrom c.line out c.rest) (stringFrom c'.line out c'.rest) := by
  have hopen {line : ℕ} : Follows (α := Text) n (.error ⟨line, .unterminatedString⟩)
      (.error ⟨line, .unterminatedString⟩) := fun _ => rfl
  obtain @⟨a, r, r', line, h⟩ := h
  dsimp only
  induction hn : a.length using Nat.strong_induction_on generalizing a line out with
  | _ k ih =>
    subst hn
    cases a with
    | nil =>
      rw [List.nil_append, List.nil_append, stringFrom.eq_def, stringFrom.eq_def]
      exact hopen
    | cons b a =>
      rw [List.cons_append, stringFrom.eq_def, List.cons_append,
        stringFrom.eq_def line out (b :: _)]
      dsimp only
      split_ifs with hquote hend hplain
      · rw [List.count_cons_of_ne (by rw [hquote]; decide)] at h
        exact .ok _ (.mk h)
      · exact hopen
      · exact ih a.length (Nat.lt_succ_self _) _ (by simpa [hend] using h) rfl
      rw [List.count_cons_of_ne hend] at h
      -- The byte behind a backslash may be the end of line `n`.
      cases a with
      | nil =>
        have hline := (scans_stringFrom (line + 1) (unescape 0x0A :: out) r).line_le
        refine .past (Nat.lt_of_lt_of_le ?_ hline)
        rw [← h]
        exact Nat.lt_succ_self _
      | cons e a =>
        have hlength : a.length < (b :: e :: a).length :=
          (Nat.lt_succ_self _).trans (Nat.lt_succ_self _)
        refine ih a.length hlength _ ?_ rfl
        rw [List.count_cons] at h
        by_cases he : e = 0x0A
        · rw [if_pos he]
          simp only [he, beq_self_eq_true, if_true] at h
          omega
        · rw [if_neg he]
          simpa [he] using h

theorem follows_string (h : c.Agree n c') : Follows n (string c) (string c') := by
  unfold string
  rw [h.startsWith_eq]
  split
  · next hquote =>
    rw [← h.startsWith_eq] at hquote
    have hdrop := h.drop_one hquote (by decide)
    exact follows_stringFrom hdrop []
  · exact .fail h.line_eq _

/-- What a list does behind one of its strings. -/
def afterItem (fuel : ℕ) (found : List Text) (c : Cursor) : Except Error (List Text × Cursor) :=
  let c := c.skipBlank
  if c.startsWith (byte ',') then listFrom fuel found (c.drop 1).skipBlank
  else if c.startsWith (byte ']') then .ok (found.reverse, c.drop 1)
  else c.fail .expectedCommaOrBracket

theorem listFrom_succ (fuel : ℕ) (found : List Text) (c : Cursor) :
    listFrom (fuel + 1) found c =
      if c.rest.isEmpty then c.fail .expectedBracket
      else if c.startsWith (byte ']') then .ok (found.reverse, c.drop 1)
      else string c >>= fun read => afterItem fuel (read.1 :: found) read.2 := rfl

/-- Behind a comma the fuel is enough for what is left of the text. -/
theorem length_lt_of_comma {fuel : ℕ} (hfuel : c.rest.length ≤ fuel)
    (hcomma : c.skipBlank.startsWith (byte ',') = true) :
    (c.skipBlank.drop 1).skipBlank.rest.length < fuel := by
  obtain ⟨gap, hgap, -⟩ := c.skips_skipBlank
  obtain ⟨gap', hgap', -⟩ := (c.skipBlank.drop 1).skips_skipBlank
  have htake := (hgap.trans (Cursor.takes_of_startsWith hcomma (by decide))).trans hgap'
  have hlength := congrArg List.length htake.rest
  simp only [List.length_append, List.length_cons] at hlength
  omega

theorem line_le_afterItem {fuel : ℕ} (hfuel : c.rest.length ≤ fuel) (found : List Text) :
    c.skipBlank.line ≤ endLine (afterItem fuel found c) := by
  unfold afterItem
  dsimp only
  split
  · next hcomma =>
    obtain ⟨gap, hgap, -⟩ := (c.skipBlank.drop 1).skips_skipBlank
    have hline := (scans_listFrom (length_lt_of_comma hfuel hcomma) found).line_le
    exact hgap.line_le.trans hline
  split
  · exact le_refl _
  · exact le_refl _

theorem follows_listFrom {fuel fuel' : ℕ} (hfuel : c.rest.length < fuel)
    (hfuel' : c'.rest.length < fuel') (h : c.Agree n c') (found : List Text) :
    Follows n (listFrom fuel found c) (listFrom fuel' found c') := by
  induction fuel generalizing c c' fuel' found with
  | zero => exact absurd hfuel (Nat.not_lt_zero _)
  | succ fuel ih =>
    obtain ⟨fuel', rfl⟩ := Nat.exists_eq_add_one.mpr (Nat.zero_lt_of_lt hfuel')
    have hlength {c d : Cursor} {fuel : ℕ} {item : Text} (hfuel : c.rest.length < fuel + 1)
        (hitem : string c = .ok (item, d)) : d.rest.length ≤ fuel := by
      have hscan := scans_string c
      rw [hitem] at hscan
      obtain ⟨t, ht, -⟩ := hscan
      exact ht.length_le.trans (Nat.le_of_lt_succ hfuel)
    rw [listFrom_succ, listFrom_succ, h.isEmpty_eq_false, h.symm.isEmpty_eq_false,
      ← h.startsWith_eq, if_neg Bool.false_ne_true, if_neg Bool.false_ne_true]
    split
    · next hclose => exact .ok _ (h.drop_one hclose (by decide))
    refine (follows_string h).bind (fun item d hitem => ?_) fun item d d' hitem hitem' hd => ?_
    · obtain ⟨gap, hgap, -⟩ := d.skips_skipBlank
      exact hgap.line_le.trans (line_le_afterItem (hlength hfuel hitem) _)
    refine .of_skipBlank hd (line_le_afterItem (hlength hfuel hitem) _) fun hd => ?_
    unfold afterItem
    dsimp only
    rw [← hd.startsWith_eq, ← hd.startsWith_eq]
    split
    · next hcomma =>
      have hshort := length_lt_of_comma (hlength hfuel hitem) hcomma
      have hshort' := length_lt_of_comma (hlength hfuel' hitem') (hd.startsWith_eq _ ▸ hcomma)
      exact .of_skipBlank (hd.drop_one hcomma (by decide)) (scans_listFrom hshort _).line_le
        fun hmore => ih hshort hshort' hmore _
    split
    · next hclose => exact .ok _ (hd.drop_one hclose (by decide))
    · exact .fail hd.line_eq _

theorem follows_list (hc : c.startsWith (byte '[') = true) (h : c.Agree n c') :
    Follows n (list c) (list c') := by
  refine .of_skipBlank (h.drop_one hc (by decide)) ?_ fun hmore => ?_
  · exact (scans_listFrom (Nat.lt_succ_self _) []).line_le
  · exact follows_listFrom (Nat.lt_succ_self _) (Nat.lt_succ_self _) hmore []

theorem follows_integer (h : c.Agree n c') : Follows n (integer c) (integer c') := by
  unfold integer
  dsimp only
  rw [← h.startsWith_eq]
  have hsign : Cursor.Agree n (if c.startsWith (byte '-') then c.drop 1 else c)
      (if c.startsWith (byte '-') then c'.drop 1 else c') := by
    split
    · next hminus => exact h.drop_one hminus (by decide)
    · exact h
  have hdrop := hsign.drop_run (p := Text.isDigit) rfl
  rw [← (hsign.run (p := Text.isDigit) rfl).1] at hdrop ⊢
  split
  · exact .ok _ hdrop
  · exact .fail hdrop.line_eq _

theorem follows_word (h : c.Agree n c') : Follows n (value.word c) (value.word c') := by
  obtain ⟨hrun, hmore⟩ := h.name
  unfold value.word
  generalize name c = read at hrun hmore ⊢
  generalize name c' = read' at hrun hmore ⊢
  obtain ⟨run, d⟩ := read
  obtain ⟨run', d'⟩ := read'
  obtain rfl : run = run' := hrun
  dsimp only
  split
  · exact .ok _ hmore
  split
  · exact .ok _ hmore
  · exact .fail hmore.line_eq _

theorem follows_value (h : c.Agree n c') : Follows n (value c) (value c') := by
  have hlift {α : Type} {r r' : Except Error (α × Cursor)} (f : α → Value) (hr : Follows n r r') :
      Follows n (r >>= fun p => pure (f p.1, p.2)) (r' >>= fun p => pure (f p.1, p.2)) :=
    hr.bind (fun _ _ _ => le_refl _) fun _ _ _ _ _ hd => .ok _ hd
  unfold value
  rw [← h.head?_eq]
  split
  · next b hb =>
    split
    · exact hlift .string (follows_string h)
    split
    · next hbracket =>
      exact hlift .strings (follows_list (by simp [Cursor.startsWith, hb, hbracket]) h)
    split
    · exact hlift .integer (follows_integer h)
    · exact follows_word h
  · exact follows_word h

end Values

section Lines

theorem follows_lineEnd (h : c.Agree n c') (x : α) :
    Follows n (lineEnd c >>= fun d => pure (x, d)) (lineEnd c' >>= fun d => pure (x, d)) := by
  have hmore := h.skipSpaces.skipComment
  unfold lineEnd
  dsimp only
  rw [hmore.isEmpty_eq_false, hmore.symm.isEmpty_eq_false, ← hmore.startsWith_eq,
    ← hmore.startsWith_eq]
  split
  · exact .ok x hmore
  · exact .fail hmore.line_eq _

theorem follows_header (hc : c.startsWith (byte '[') = true) (h : c.Agree n c') :
    Follows n (header c) (header c') := by
  have hopen := h.drop_one hc (by decide)
  unfold header
  dsimp only
  rw [← hopen.startsWith_eq]
  generalize hentry : (c.drop 1).startsWith (byte '[') = isEntry
  have hinner : Cursor.Agree n (if isEntry then (c.drop 1).drop 1 else c.drop 1)
      (if isEntry then (c'.drop 1).drop 1 else c'.drop 1) := by
    split
    · next hsecond => exact hopen.drop_one (hentry.trans hsecond) (by decide)
    · exact hopen
  generalize (if isEntry then (c.drop 1).drop 1 else c.drop 1) = d at hinner ⊢
  generalize (if isEntry then (c'.drop 1).drop 1 else c'.drop 1) = d' at hinner ⊢
  obtain ⟨htitle, hnamed⟩ := hinner.skipSpaces.name
  have hend := hnamed.skipSpaces
  rw [← htitle, ← hend.startsWith_eq]
  split
  · exact .fail hend.line_eq _
  split
  · exact .fail hend.line_eq _
  next hclose =>
  have hclosed := hend.drop_one (b := byte ']') (by simpa using hclose) (by decide)
  rw [← hclosed.startsWith_eq]
  split
  · exact .fail hclosed.line_eq _
  next hcloses =>
  refine follows_lineEnd ?_ _
  split
  · next hsecond =>
    rw [hsecond] at hcloses
    exact hclosed.drop_one (b := byte ']') (by simpa using hcloses) (by decide)
  · exact hclosed

theorem follows_setting (h : c.Agree n c') : Follows n (setting c) (setting c') := by
  obtain ⟨hkey, hnamed⟩ := h.name
  unfold setting
  generalize name c = read at hkey hnamed ⊢
  generalize name c' = read' at hkey hnamed ⊢
  obtain ⟨key, d⟩ := read
  obtain ⟨key', d'⟩ := read'
  obtain rfl : key = key' := hkey
  obtain _ | ⟨b, key⟩ := key
  · dsimp only at hnamed ⊢
    rw [← hnamed.head?_eq]
    exact .fail hnamed.line_eq _
  have hspaced := hnamed.skipSpaces
  dsimp only at hspaced ⊢
  rw [← hspaced.startsWith_eq]
  split
  · exact .fail hspaced.line_eq _
  next hequals =>
  have hbehind := (hspaced.drop_one (b := byte '=') (by simpa using hequals) (by decide)).skipSpaces
  refine (follows_value hbehind).bind (fun v e _ => ?_) fun v e e' _ _ he => follows_lineEnd he _
  obtain ⟨f, hf, -, -, t, ht⟩ | ⟨f, hf, hline⟩ := lineEnd_cases e
  · rw [hf]
    exact ht.line_le
  · rw [hf]
    exact hline.ge

end Lines

section Statements

theorem ScansAll.line_le {done : List Section} {current : Section} {e : Error}
    (h : ScansAll done current c (.error e)) : c.line ≤ e.line := by
  obtain ⟨t, u, d, statements, ht, hline, -⟩ := h
  exact ht.line_le.trans_eq hline

/-- A line that is read takes some of the text. -/
theorem ScansLine.length_lt {P : Text → α → Prop} {x : α} {d : Cursor}
    (h : ScansLine P c (.ok (x, d))) (hP : ∀ t x, P t x → t ≠ []) :
    d.rest.length < c.rest.length := by
  obtain ⟨t, e, ht, hx, -, -, s, hs⟩ := h
  have hne := List.length_pos_of_ne_nil (hP t x hx)
  have hlength := congrArg List.length ht.rest
  have hle := hs.length_le
  rw [List.length_append] at hlength
  omega

/-- An error before the end of line `n` is found in both texts. -/
theorem sectionsFrom_agree {fuel fuel' : ℕ} (hfuel : c.rest.length < fuel)
    (hfuel' : c'.rest.length < fuel') (h : c.Agree n c') {done : List Section} {current : Section}
    {e : Error} (he : sectionsFrom fuel done current c = .error e) (hle : e.line ≤ n) :
    sectionsFrom fuel' done current c' = .error e := by
  induction fuel generalizing c c' fuel' done current with
  | zero => exact absurd hfuel (Nat.not_lt_zero _)
  | succ fuel ih =>
    obtain ⟨fuel', rfl⟩ := Nat.exists_eq_add_one.mpr (Nat.zero_lt_of_lt hfuel')
    have hshort {c : Cursor} : c.skipBlank.rest.length ≤ c.rest.length := by
      obtain ⟨gap, hgap, -⟩ := c.skips_skipBlank
      exact hgap.length_le
    have hskip : c.skipBlank.line ≤ e.line := by
      rw [← sectionsFrom_congr c.skipBlank_skipBlank] at he
      have hscan := scansAll_sectionsFrom (hshort.trans_lt hfuel) done current
      rw [he] at hscan
      exact hscan.line_le
    have hd := h.skipBlank (hskip.trans hle)
    -- Whichever line comes next, the error is in it or behind it.
    have hstep {α : Type} {P : Text → α → Prop} {r r' : Except Error (α × Cursor)}
        (next : α → List Section × Section) (hscan : ScansLine P c.skipBlank r)
        (hscan' : ScansLine P c'.skipBlank r') (hP : ∀ t x, P t x → t ≠ [])
        (hfollows : Follows n r r')
        (hr : (r >>= fun p => sectionsFrom fuel (next p.1).1 (next p.1).2 p.2) = .error e) :
        (r' >>= fun p => sectionsFrom fuel' (next p.1).1 (next p.1).2 p.2) = .error e := by
      match r, hr with
      | .error _, hr =>
        obtain rfl := Except.error.inj hr
        rw [hfollows hle]
        rfl
      | .ok (x, d), hr =>
        change sectionsFrom fuel (next x).1 (next x).2 d = .error e at hr
        have hlength := (hscan.length_lt hP).trans_le (hshort.trans (Nat.le_of_lt_succ hfuel))
        have hbehind := scansAll_sectionsFrom hlength (next x).1 (next x).2
        rw [hr] at hbehind
        obtain ⟨d', rfl, hagree⟩ := hfollows (hbehind.line_le.trans hle)
        have hlength' := (hscan'.length_lt hP).trans_le (hshort.trans (Nat.le_of_lt_succ hfuel'))
        exact ih hlength hlength' hagree hr
    rw [sectionsFrom] at he ⊢
    dsimp only at he ⊢
    rw [hd.isEmpty_eq_false, if_neg Bool.false_ne_true] at he
    rw [hd.symm.isEmpty_eq_false, if_neg Bool.false_ne_true, ← hd.startsWith_eq]
    split at he
    · next hbracket =>
      have hbracket' := hd.startsWith_eq (byte '[') ▸ hbracket
      rw [if_pos hbracket]
      refine hstep (fun s => (current :: done, s)) (scansLine_header hbracket)
        (scansLine_header hbracket') ?_ (follows_header hbracket hd) he
      rintro t _ ⟨title, isEntry, states, rfl⟩ rfl
      obtain ⟨b, t, ht, -⟩ := states.head
      cases ht
    · next hbracket =>
      rw [if_neg hbracket]
      refine hstep
        (fun s => (done, { current with values := current.values.insert s.1 s.2 }))
        (scansLine_setting _) (scansLine_setting _) ?_ (follows_setting hd) he
      rintro t _ states rfl
      obtain ⟨b, t, ht, -⟩ := States.head states
      cases ht

/-- What is wrong in a text is as wrong in every text with the same lines up to the error. -/
theorem parse_error_of_agree {t t' : Text} {e : Error} (h : parse t = .error e)
    (hagree : Cursor.Agree e.line ⟨t, 1⟩ ⟨t', 1⟩) : parse t' = .error e :=
  sectionsFrom_agree (Nat.lt_succ_self _) (Nat.lt_succ_self _) hagree h (le_refl _)

end Statements

/-- An error names the line of the first byte that is wrong. The lines before it are the beginning
of a text that is read; with the line that it names, if that one has an end, they are the
beginning of texts with this error only. -/
theorem error_line {t : Text} {e : Error} (h : parse t = .error e) :
    e.message = utf8 "Line " ++ Text.ofNat e.line ++ utf8 ": " ++ e.cause.message ∧
      1 ≤ e.line ∧ e.line ≤ t.count 0x0A + 1 ∧
      (∃ u document, parse (firstLines (e.line - 1) t ++ u) = .ok document) ∧
      ((∀ u, parse (firstLines e.line t ++ u) = .error e) ∨ e.line = t.count 0x0A + 1) := by
  obtain ⟨s, u, d, statements, ⟨hrest, hline⟩, hd, written⟩ := exists_written_of_error h
  rw [hline] at hd
  dsimp only at hrest hd
  have hcount : t.count 0x0A = s.count 0x0A + d.rest.count 0x0A := by
    rw [hrest, List.count_append]
  refine ⟨rfl, by omega, by omega, ?_, ?_⟩
  · obtain ⟨more, hmore⟩ := exists_firstLines_append (s := s) (n := e.line - 1) (by omega) d.rest
    refine ⟨more ++ u, build [] {} statements, ?_⟩
    rw [hrest, ← List.append_assoc, ← hmore]
    exact parse_written written
  · by_cases hlast : e.line = t.count 0x0A + 1
    · exact .inr hlast
    refine .inl fun u => ?_
    obtain ⟨a, r, hlines, ht, ha⟩ := exists_firstLines_eq (t := t) (n := e.line - 1) (by omega)
    rw [Nat.sub_add_cancel (by omega)] at hlines
    rw [hlines, List.append_assoc]
    refine parse_error_of_agree h ?_
    rw [ht]
    exact .mk (by omega)

/-- A string goes on in the next line, and the list in the one behind it. -/
def longListText : Text := utf8 "a = [\"b\\\nc\",\n 1 ]\n"

theorem error_line_of_longList :
    parse longListText = .error ⟨3, .expectedString⟩ ∧
      (∃ u document, parse (firstLines 2 longListText ++ u) = .ok document) ∧
      ∀ u, parse (longListText ++ u) = .error ⟨3, .expectedString⟩ := by
  have h : parse longListText = .error ⟨3, .expectedString⟩ := by decide
  obtain ⟨-, -, -, hbefore, hthrough⟩ := error_line h
  have hlines : firstLines 3 longListText = longListText := by decide
  have hmore : 3 ≠ longListText.count 0x0A + 1 := by decide
  exact ⟨h, hbefore, hlines ▸ hthrough.resolve_right hmore⟩

end NativeBuild.Manifest
