import Mathlib.Data.List.DropRight
import NativeBuild.Proofs.Json.Reading

/-!
# What is accepted, and what it means

The reader accepts exactly the values of the grammar with blanks around them, and gives what the
grammar says that they mean. Both directions go by induction on the fuel, for values, items and
members together. The fuel of a reader is twice the length of the text, which no value can use up.
-/
namespace NativeBuild.Json

/-- What is read with this fuel is written by the grammar. The containers around the text and those
in it are as many as there may be. The blanks in front of the first part of a container have been
passed by then. -/
structure SoundAt (fuel : ℕ) : Prop where
  value : ∀ {depth left : ℕ} {c : Cursor} {v : Value} {rest : Text}, depth + left = maxDepth →
    Reads (value fuel depth c) v rest →
    ∃ e : Element, Denotes left e.text e.value ∧ e.value = v ∧ c.rest = e.written ++ rest
  items : ∀ {depth left : ℕ} {found : List Value} {c : Cursor} {v : Value} {blanks rest : Text},
    depth + left = maxDepth → Blank blanks → Reads (items fuel depth found c) v rest →
    ∃ es : List Element, es ≠ [] ∧ (∀ e ∈ es, Denotes left e.text e.value) ∧
      blanks ++ c.rest = separated (es.map Element.written) ++ byte ']' :: rest ∧
      v = .array (found.reverse ++ es.map Element.value)
  members : ∀ {depth left : ℕ} {found : Dictionary Value} {c : Cursor} {v : Value}
    {blanks rest : Text}, depth + left = maxDepth → Blank blanks →
    Reads (members fuel depth found c) v rest →
    ∃ ms : List Member, ms ≠ [] ∧ (∀ m ∈ ms, Denotes left m.element.text m.element.value) ∧
      blanks ++ c.rest = separated (ms.map Member.written) ++ byte '\x7d' :: rest ∧
      v = .object ((ms.map Member.entry).foldl (fun d e => Dictionary.insert e.1 e.2 d) found)

namespace SoundAt

variable {fuel depth left : ℕ} {c : Cursor} {v : Value} {rest : Text}

theorem value_succ (ih : SoundAt fuel) (hdepth : depth + left = maxDepth)
    (h : Reads (Json.value (fuel + 1) depth c) v rest) :
    ∃ e : Element, Denotes left e.text e.value ∧ e.value = v ∧ c.rest = e.written ++ rest := by
  obtain ⟨before, hbefore, hc⟩ := exists_blanks c
  -- It is enough to say what stands behind the blanks.
  suffices hden : ∃ text, Denotes left text v ∧ c.skipBlanks.rest = text ++ rest by
    obtain ⟨text, hden, htext⟩ := hden
    refine ⟨⟨before, text, [], v, hbefore, .nil⟩, hden, rfl, ?_⟩
    rw [hc, htext]
    simp [Element.written]
  rw [Json.value_succ] at h
  cases hskip : c.skipBlanks.rest with
  | nil =>
    rw [hskip] at h
    exact absurd h (Reads.not_error _ _ _ _)
  | cons b t =>
    simp only [hskip] at h
    split at h
    · next hb =>
      subst hb
      obtain ⟨hlt, blanks, hblanks, ⟨rfl, rfl⟩ | ⟨d, rfl, h⟩⟩ := opened_of_reads hskip h
      · obtain ⟨left, rfl⟩ := Nat.exists_eq_add_of_le' (show 1 ≤ left by omega)
        exact ⟨_, .emptyObject hblanks, by simp⟩
      · obtain ⟨left, rfl⟩ := Nat.exists_eq_add_of_le' (show 1 ≤ left by omega)
        have hinner : depth + 1 + left = maxDepth := by omega
        obtain ⟨ms, hne, heach, hms, rfl⟩ := ih.members hinner hblanks h
        exact ⟨_, .object hne heach (Dictionary.keeps_ofList _), by simp [hms]⟩
    split at h
    · next hb =>
      subst hb
      obtain ⟨hlt, blanks, hblanks, ⟨rfl, rfl⟩ | ⟨d, rfl, h⟩⟩ := opened_of_reads hskip h
      · obtain ⟨left, rfl⟩ := Nat.exists_eq_add_of_le' (show 1 ≤ left by omega)
        exact ⟨_, .emptyArray hblanks, by simp⟩
      · obtain ⟨left, rfl⟩ := Nat.exists_eq_add_of_le' (show 1 ≤ left by omega)
        have hinner : depth + 1 + left = maxDepth := by omega
        obtain ⟨es, hne, heach, hes, rfl⟩ := ih.items hinner hblanks h
        exact ⟨_, .array hne heach, by simp [hes]⟩
    split at h
    · next hb =>
      subst hb
      obtain ⟨meant, d, hstring, h⟩ := Reads.of_bind h
      obtain ⟨rfl, rfl⟩ := (Reads.ok_iff ..).mp h
      obtain ⟨written, hchars, rfl⟩ := string_of_reads hskip hstring
      exact ⟨_, .string hchars, by simp⟩
    rw [← hskip]
    split at h
    · obtain ⟨rfl, ht⟩ := literal_of_reads h
      exact ⟨_, .yes, ht⟩
    split at h
    · obtain ⟨rfl, ht⟩ := literal_of_reads h
      exact ⟨_, .no, ht⟩
    split at h
    · obtain ⟨rfl, ht⟩ := literal_of_reads h
      exact ⟨_, .null, ht⟩
    split at h
    · obtain ⟨text, n, isNumber, means, ht⟩ := number_of_reads h
      exact ⟨text, .number isNumber means, ht⟩
    · exact absurd h (Reads.not_error _ _ _ _)

theorem items_succ (ih : SoundAt fuel) {found : List Value} {blanks : Text}
    (hdepth : depth + left = maxDepth) (hblanks : Blank blanks)
    (h : Reads (Json.items (fuel + 1) depth found c) v rest) :
    ∃ es : List Element, es ≠ [] ∧ (∀ e ∈ es, Denotes left e.text e.value) ∧
      blanks ++ c.rest = separated (es.map Element.written) ++ byte ']' :: rest ∧
      v = .array (found.reverse ++ es.map Element.value) := by
  rw [Json.items_succ] at h
  obtain ⟨x, d, hx, h⟩ := Reads.of_bind h
  obtain ⟨e, hden, rfl, hc⟩ := ih.value hdepth hx
  obtain ⟨after, hafter, hd⟩ := exists_blanks d
  obtain ⟨hcomma, h⟩ | ⟨hclose, rfl⟩ := followed_of_reads h
  · obtain ⟨es, hne, heach, hes, rfl⟩ := ih.items hdepth .nil h
    refine ⟨e.between hblanks hafter :: es, List.cons_ne_nil _ _, ?_, ?_, ?_⟩
    · exact List.forall_mem_cons.mpr ⟨hden, heach⟩
    · rw [List.nil_append] at hes
      rw [hc, hd, hcomma, hes, List.map_cons, separated_cons _ (by simpa using hne)]
      simp
    · simp [Element.between]
  · refine ⟨[e.between hblanks hafter], List.cons_ne_nil _ _, ?_, ?_, ?_⟩
    · exact List.forall_mem_singleton.mpr hden
    · rw [hc, hd, hclose, List.map_singleton, separated_singleton]
      simp
    · simp [Element.between]

theorem member (ih : SoundAt fuel) {entry : Text × Value} (hdepth : depth + left = maxDepth)
    (h : Reads (Json.member fuel depth c) entry rest) :
    ∃ m : Member, Denotes left m.element.text m.element.value ∧ m.entry = entry ∧
      c.rest = m.written ++ rest := by
  unfold Json.member at h
  split at h
  · exact absurd h (Reads.not_error _ _ _ _)
  · next hquote =>
    have hc := (Cursor.startsWith_iff (byte '"') c).mp (by simpa using hquote)
    obtain ⟨meant, d, hkey, h⟩ := Reads.of_bind h
    obtain ⟨key, hchars, hkeyText⟩ := string_of_reads hc hkey
    obtain ⟨between, hbetween, hd⟩ := exists_blanks d
    split at h
    · exact absurd h (Reads.not_error _ _ _ _)
    · next hcolon =>
      have hcolon := (Cursor.startsWith_iff (byte ':') d.skipBlanks).mp (by simpa using hcolon)
      obtain ⟨x, d', hx, h⟩ := Reads.of_bind h
      obtain ⟨e, hden, rfl, he⟩ := ih.value hdepth hx
      obtain ⟨rfl, rfl⟩ := (Reads.ok_iff ..).mp h
      refine ⟨⟨[], key, meant, between, e, .nil, hchars, hbetween⟩, hden, rfl, ?_⟩
      rw [hc, hkeyText, hd, hcolon, ← Cursor.rest_advance, he]
      simp [Member.written]

theorem members_succ (ih : SoundAt fuel) {found : Dictionary Value} {blanks : Text}
    (hdepth : depth + left = maxDepth) (hblanks : Blank blanks)
    (h : Reads (Json.members (fuel + 1) depth found c) v rest) :
    ∃ ms : List Member, ms ≠ [] ∧ (∀ m ∈ ms, Denotes left m.element.text m.element.value) ∧
      blanks ++ c.rest = separated (ms.map Member.written) ++ byte '\x7d' :: rest ∧
      v = .object ((ms.map Member.entry).foldl (fun d e => Dictionary.insert e.1 e.2 d) found) := by
  rw [Json.members_succ] at h
  obtain ⟨x, d, hx, h⟩ := Reads.of_bind h
  obtain ⟨before, hbefore, hc⟩ := exists_blanks c
  obtain ⟨m, hden, rfl, hm⟩ := ih.member hdepth hx
  obtain ⟨after, hafter, hd⟩ := exists_blanks d
  obtain ⟨hcomma, h⟩ | ⟨hclose, rfl⟩ := followed_of_reads h
  · obtain ⟨ms, hne, heach, hms, rfl⟩ := ih.members hdepth .nil h
    refine ⟨m.within (hblanks.append hbefore) hafter :: ms, List.cons_ne_nil _ _, ?_, ?_, rfl⟩
    · exact List.forall_mem_cons.mpr ⟨hden, heach⟩
    · rw [List.nil_append] at hms
      rw [hc, hm, hd, hcomma, hms, List.map_cons, separated_cons _ (by simpa using hne)]
      simp
  · refine ⟨[m.within (hblanks.append hbefore) hafter], List.cons_ne_nil _ _, ?_, ?_, rfl⟩
    · exact List.forall_mem_singleton.mpr hden
    · rw [hc, hm, hd, hclose, List.map_singleton, separated_singleton]
      simp

end SoundAt

theorem soundAt (fuel : ℕ) : SoundAt fuel := by
  induction fuel with
  | zero =>
    refine ⟨fun _ h => ?_, fun _ _ h => ?_, fun _ _ h => ?_⟩
    · rw [value] at h
      exact absurd h (Reads.not_error _ _ _ _)
    · rw [items] at h
      exact absurd h (Reads.not_error _ _ _ _)
    · rw [members] at h
      exact absurd h (Reads.not_error _ _ _ _)
  | succ fuel ih => exact ⟨ih.value_succ, ih.items_succ, ih.members_succ⟩

/-- What the grammar writes is read with this fuel. A number must be followed by a byte with which
no number goes on; inside of a container it always is. -/
structure CompleteAt (fuel : ℕ) : Prop where
  value : ∀ {depth left : ℕ} {c : Cursor} {text : Text} {v : Value} {rest : Text},
    depth + left = maxDepth → Denotes left text v → c.skipBlanks.rest = text ++ rest →
    (∀ n, NumberText text n → Stops rest) → 2 * text.length ≤ fuel →
    Reads (value fuel depth c) v rest
  items : ∀ {depth left : ℕ} {found : List Value} {c : Cursor} {es : List Element} {rest : Text},
    depth + left = maxDepth → es ≠ [] → (∀ e ∈ es, Denotes left e.text e.value) →
    c.skipBlanks.rest =
      (separated (es.map Element.written) ++ byte ']' :: rest).dropWhile isBlank →
    2 * (separated (es.map Element.written)).length < fuel →
    Reads (items fuel depth found c) (.array (found.reverse ++ es.map Element.value)) rest
  members : ∀ {depth left : ℕ} {found : Dictionary Value} {c : Cursor} {ms : List Member}
    {rest : Text}, depth + left = maxDepth → ms ≠ [] →
    (∀ m ∈ ms, Denotes left m.element.text m.element.value) →
    c.skipBlanks.rest =
      (separated (ms.map Member.written) ++ byte '\x7d' :: rest).dropWhile isBlank →
    2 * (separated (ms.map Member.written)).length < fuel →
    Reads (members fuel depth found c)
      (.object ((ms.map Member.entry).foldl (fun d e => Dictionary.insert e.1 e.2 d) found)) rest

variable {c : Cursor} {t : Text}

theorem dropWhile_element {depth : ℕ} {e : Element} (h : Denotes depth e.text e.value)
    (tail : Text) : ∃ b inner, (e.written ++ tail).dropWhile isBlank = b :: inner ∧
      b :: inner = e.text ++ (e.after ++ tail) ∧ b ≠ byte ']' := by
  obtain ⟨b, rest, ht, hb, hne⟩ := h.head
  refine ⟨b, rest ++ (e.after ++ tail), ?_, by rw [ht]; rfl, hne⟩
  simp only [Element.written, List.append_assoc]
  rw [e.blankBefore.dropWhile, ht, List.cons_append, List.dropWhile_cons_of_neg (by simp [hb])]

theorem dropWhile_member (m : Member) (tail : Text) :
    (m.written ++ tail).dropWhile isBlank = byte '"' :: (m.key ++ byte '"' ::
      (m.between ++ byte ':' :: (m.element.written ++ tail))) := by
  have hquote : isBlank (byte '"') = false := by decide
  simp only [Member.written, List.append_assoc, List.cons_append]
  rw [m.blankBefore.dropWhile, List.dropWhile_cons_of_neg (by simp [hquote])]

/-- Behind the first part of a container stands nothing more, or a comma and the other parts. -/
theorem separated_cases (part : Text) (parts : List Text) (rest : Text) :
    (parts = [] ∧ separated (part :: parts) ++ rest = part ++ rest) ∨
      (parts ≠ [] ∧ separated (part :: parts) ++ rest =
        part ++ byte ',' :: (separated parts ++ rest)) := by
  by_cases h : parts = []
  · subst h
    exact .inl ⟨rfl, by rw [separated_singleton]⟩
  · exact .inr ⟨h, by rw [separated_cons part h]; simp⟩

theorem exists_tail (part : Text) (parts : List Text) (rest : Text) :
    ∃ tail, separated (part :: parts) ++ rest = part ++ tail := by
  obtain ⟨-, h⟩ | ⟨-, h⟩ := separated_cases part parts rest
  · exact ⟨_, h⟩
  · exact ⟨_, h⟩

theorem skipBlanks_idempotent (h : c.rest = t.dropWhile isBlank) :
    c.skipBlanks.rest = t.dropWhile isBlank := by
  rw [Cursor.rest_skipBlanks, h, List.dropWhile_idempotent]

namespace CompleteAt

variable {fuel depth left : ℕ} {c : Cursor} {v : Value} {rest : Text}

theorem value_succ (ih : CompleteAt fuel) {text : Text} (hdepth : depth + left = maxDepth)
    (hden : Denotes left text v) (hc : c.skipBlanks.rest = text ++ rest)
    (hrest : ∀ n, NumberText text n → Stops rest) (hfuel : 2 * text.length ≤ fuel + 1) :
    Reads (Json.value (fuel + 1) depth c) v rest := by
  obtain ⟨b, t, htext, -, -⟩ := hden.head
  have hfront : c.skipBlanks.rest = b :: (t ++ rest) := by rw [hc, htext, List.cons_append]
  rw [Json.value_succ, hfront]
  cases hden with
  | null =>
    obtain ⟨rfl, rfl⟩ := List.cons.inj htext
    exact reads_literal hc
  | yes =>
    obtain ⟨rfl, rfl⟩ := List.cons.inj htext
    exact reads_literal hc
  | no =>
    obtain ⟨rfl, rfl⟩ := List.cons.inj htext
    exact reads_literal hc
  | string characters =>
    obtain ⟨rfl, rfl⟩ := List.cons.inj htext
    refine (reads_string characters (by simpa using hfront)).bind fun d hd => ?_
    exact (Reads.ok_iff ..).mpr ⟨rfl, hd⟩
  | number isNumber means =>
    obtain ⟨_, _, ht, hb⟩ := isNumber.head
    obtain ⟨rfl, rfl⟩ := List.cons.inj (ht.symm.trans htext)
    obtain ⟨-, -, hbrace, hbracket, hquote, hyes, hno, hnull, hnumber⟩ := numberStart _ hb
    dsimp only
    rw [if_neg hbrace, if_neg hbracket, if_neg hquote, if_neg hyes, if_neg hno, if_neg hnull,
      if_pos hnumber]
    exact reads_of_number isNumber means hc (hrest _ isNumber)
  | emptyArray blanks =>
    obtain ⟨rfl, rfl⟩ := List.cons.inj htext
    exact reads_opened_empty (by omega) blanks (by decide) (by simpa using hfront)
  | emptyObject blanks =>
    obtain ⟨rfl, rfl⟩ := List.cons.inj htext
    exact reads_opened_empty (by omega) blanks (by decide) (by simpa using hfront)
  | @array left es nonempty each =>
    obtain ⟨rfl, rfl⟩ := List.cons.inj htext
    obtain ⟨e, more, rfl⟩ := List.exists_cons_of_ne_nil nonempty
    obtain ⟨tail, htail⟩ := exists_tail e.written (more.map Element.written) (byte ']' :: rest)
    obtain ⟨a, inner, hdrop, -, ha⟩ := dropWhile_element (each e List.mem_cons_self) tail
    rw [← htail] at hdrop
    refine reads_opened (by omega) hfront (by simpa using hdrop) ha fun d hd => ?_
    have hinner : depth + 1 + left = maxDepth := by omega
    refine ih.items hinner nonempty each (skipBlanks_idempotent (hd.trans hdrop.symm)) ?_
    simp only [List.length_cons, List.length_append] at hfuel
    omega
  | @object left ms found nonempty each keeps =>
    obtain ⟨rfl, rfl⟩ := List.cons.inj htext
    obtain rfl := keeps.eq_ofList
    obtain ⟨m, more, rfl⟩ := List.exists_cons_of_ne_nil nonempty
    obtain ⟨tail, htail⟩ := exists_tail m.written (more.map Member.written) (byte '\x7d' :: rest)
    have hdrop := dropWhile_member m tail
    rw [← htail] at hdrop
    refine reads_opened (by omega) hfront (by simpa using hdrop) (by decide) fun d hd => ?_
    have hinner : depth + 1 + left = maxDepth := by omega
    refine ih.members hinner nonempty each (skipBlanks_idempotent (hd.trans hdrop.symm)) ?_
    simp only [List.length_cons, List.length_append] at hfuel
    omega

/-- An element is read up to the byte behind its blanks. -/
theorem element (ih : CompleteAt fuel) {e : Element} {b : UInt8} {tail : Text}
    (hdepth : depth + left = maxDepth) (hden : Denotes left e.text e.value)
    (hc : c.skipBlanks.rest = (e.written ++ b :: tail).dropWhile isBlank)
    (hb : b = byte ',' ∨ b = byte ']' ∨ b = byte '\x7d') (hfuel : 2 * e.text.length ≤ fuel) :
    ∃ d, Json.value fuel depth c = .ok (e.value, d) ∧ d.skipBlanks.rest = b :: tail := by
  obtain ⟨a, inner, hdrop, htext, -⟩ := dropWhile_element hden (b :: tail)
  rw [hdrop, htext] at hc
  obtain ⟨d, hd, hrest⟩ :=
    ih.value hdepth hden hc (fun _ _ => .of_blank e.blankAfter hb) hfuel
  have hnot : isBlank b = false := by obtain rfl | rfl | rfl := hb <;> decide
  exact ⟨d, hd, skipBlanks_eq e.blankAfter hnot hrest⟩

theorem member (ih : CompleteAt fuel) {m : Member} {b : UInt8} {tail : Text}
    (hdepth : depth + left = maxDepth) (hden : Denotes left m.element.text m.element.value)
    (hc : c.rest = (m.written ++ b :: tail).dropWhile isBlank)
    (hb : b = byte ',' ∨ b = byte ']' ∨ b = byte '\x7d')
    (hfuel : 2 * m.element.text.length ≤ fuel) :
    ∃ d, Json.member fuel depth c = .ok (m.entry, d) ∧ d.skipBlanks.rest = b :: tail := by
  rw [dropWhile_member] at hc
  obtain ⟨key, hkey, hkeyRest⟩ := reads_string m.characters hc
  have hcolon := skipBlanks_eq m.blankBetween (by decide) hkeyRest
  have hvalue : (key.skipBlanks.advance 1).skipBlanks.rest =
      (m.element.written ++ b :: tail).dropWhile isBlank := by
    rw [Cursor.rest_skipBlanks, Cursor.rest_advance, hcolon]
    rfl
  obtain ⟨d, hd, hrest⟩ := ih.element hdepth hden hvalue hb hfuel
  refine ⟨d, ?_, hrest⟩
  unfold Json.member
  rw [if_neg (by simp [Cursor.startsWith, hc]), hkey]
  dsimp only [bind, Except.bind]
  rw [if_neg (by simp [Cursor.startsWith, hcolon]), hd]
  rfl

theorem items_succ (ih : CompleteAt fuel) {found : List Value} {es : List Element}
    (hdepth : depth + left = maxDepth) (hne : es ≠ [])
    (each : ∀ e ∈ es, Denotes left e.text e.value)
    (hc : c.skipBlanks.rest =
      (separated (es.map Element.written) ++ byte ']' :: rest).dropWhile isBlank)
    (hfuel : 2 * (separated (es.map Element.written)).length < fuel + 1) :
    Reads (Json.items (fuel + 1) depth found c) (.array (found.reverse ++ es.map Element.value))
      rest := by
  obtain ⟨e, more, rfl⟩ := List.exists_cons_of_ne_nil hne
  obtain ⟨hden, heach⟩ := List.forall_mem_cons.mp each
  have hlength : e.text.length ≤ e.written.length := by
    simp only [Element.written, List.length_append]
    omega
  rw [Json.items_succ]
  rw [List.map_cons] at hc hfuel
  obtain ⟨hmore, htail⟩ | ⟨hmore, htail⟩ :=
    separated_cases e.written (more.map Element.written) (byte ']' :: rest)
  · obtain rfl := List.map_eq_nil_iff.mp hmore
    rw [List.map_nil, separated_singleton] at hc hfuel
    obtain ⟨d, hd, hrest⟩ := ih.element hdepth hden hc (.inr (.inl rfl)) (by omega)
    have hlist : found.reverse ++ [e].map Element.value = (e.value :: found).reverse := by simp
    rw [hd, hlist]
    exact reads_followed_close (by decide) hrest
  · rw [separated_cons _ hmore, List.length_append, List.length_cons] at hfuel
    rw [htail] at hc
    obtain ⟨d, hd, hrest⟩ := ih.element hdepth hden hc (.inl rfl) (by omega)
    rw [hd]
    refine reads_followed hrest fun d' hd' => ?_
    have hne' : more ≠ [] := fun h => hmore (List.map_eq_nil_iff.mpr h)
    have hskip : d'.skipBlanks.rest =
        (separated (more.map Element.written) ++ byte ']' :: rest).dropWhile isBlank := by
      rw [Cursor.rest_skipBlanks, hd']
    have hread := @ih.items depth left (e.value :: found) d' more rest hdepth hne' heach hskip
      (by omega)
    simpa using hread

theorem members_succ (ih : CompleteAt fuel) {found : Dictionary Value} {ms : List Member}
    (hdepth : depth + left = maxDepth) (hne : ms ≠ [])
    (each : ∀ m ∈ ms, Denotes left m.element.text m.element.value)
    (hc : c.skipBlanks.rest =
      (separated (ms.map Member.written) ++ byte '\x7d' :: rest).dropWhile isBlank)
    (hfuel : 2 * (separated (ms.map Member.written)).length < fuel + 1) :
    Reads (Json.members (fuel + 1) depth found c)
      (.object ((ms.map Member.entry).foldl (fun d e => Dictionary.insert e.1 e.2 d) found))
      rest := by
  obtain ⟨m, more, rfl⟩ := List.exists_cons_of_ne_nil hne
  obtain ⟨hden, heach⟩ := List.forall_mem_cons.mp each
  have hlength : m.element.text.length ≤ m.written.length := by
    simp only [Member.written, Element.written, List.length_append, List.length_cons]
    omega
  rw [Json.members_succ]
  rw [List.map_cons] at hc hfuel
  obtain ⟨hmore, htail⟩ | ⟨hmore, htail⟩ :=
    separated_cases m.written (more.map Member.written) (byte '\x7d' :: rest)
  · obtain rfl := List.map_eq_nil_iff.mp hmore
    rw [List.map_nil, separated_singleton] at hc hfuel
    obtain ⟨d, hd, hrest⟩ := ih.member hdepth hden hc (.inr (.inr rfl)) (by omega)
    rw [hd]
    exact reads_followed_close (by decide) hrest
  · rw [separated_cons _ hmore, List.length_append, List.length_cons] at hfuel
    rw [htail] at hc
    obtain ⟨d, hd, hrest⟩ := ih.member hdepth hden hc (.inl rfl) (by omega)
    rw [hd]
    refine reads_followed hrest fun d' hd' => ?_
    have hne' : more ≠ [] := fun h => hmore (List.map_eq_nil_iff.mpr h)
    refine ih.members hdepth hne' heach ?_ (by omega)
    rw [Cursor.rest_skipBlanks, hd']

end CompleteAt

theorem completeAt (fuel : ℕ) : CompleteAt fuel := by
  induction fuel with
  | zero =>
    refine ⟨fun _ hden _ _ hfuel => ?_, fun _ _ _ _ hfuel => ?_, fun _ _ _ _ hfuel => ?_⟩
    · obtain ⟨b, t, rfl, -⟩ := hden.head
      simp at hfuel
    · omega
    · omega
  | succ fuel ih => exact ⟨ih.value_succ, ih.items_succ, ih.members_succ⟩

theorem parse_eq (t : Text) :
    parse t = value (2 * t.length + 1) 0 (Cursor.start t) >>= fun read =>
      if read.2.skipBlanks.rest.isEmpty then pure read.1
      else read.2.skipBlanks.fail .trailing := rfl

/-- The values with blanks around them are accepted, and what they mean is given. -/
theorem parse_of_denotes {before text after : Text} {v : Value} (hbefore : Blank before)
    (hafter : Blank after) (h : Denotes maxDepth text v) :
    parse (before ++ text ++ after) = .ok v := by
  have hskip : (Cursor.start (before ++ text ++ after)).skipBlanks.rest = text ++ after := by
    obtain ⟨b, inner, rfl, hb, -⟩ := h.head
    exact skipBlanks_eq hbefore hb (by simp [Cursor.start])
  have hfuel : 2 * text.length ≤ 2 * (before ++ text ++ after).length + 1 := by
    simp only [List.length_append]
    omega
  obtain ⟨d, hd, hrest⟩ :=
    (completeAt _).value (Nat.zero_add maxDepth) h hskip (fun _ _ => .of_blanks hafter) hfuel
  have hend : d.skipBlanks.rest = [] := by
    rw [Cursor.rest_skipBlanks, hrest, List.dropWhile_eq_nil_iff]
    exact hafter
  rw [parse_eq, hd]
  dsimp only [bind, Except.bind]
  rw [if_pos (by rw [hend]; rfl)]
  rfl

theorem denotes_of_parse {t : Text} {v : Value} (h : parse t = .ok v) :
    ∃ before text after, Blank before ∧ Blank after ∧ t = before ++ text ++ after ∧
      Denotes maxDepth text v := by
  rw [parse_eq] at h
  cases hread : value (2 * t.length + 1) 0 (Cursor.start t) with
  | error e =>
    rw [hread] at h
    cases h
  | ok read =>
    obtain ⟨v', d⟩ := read
    obtain ⟨e, hden, rfl, ht⟩ := (soundAt _).value (Nat.zero_add maxDepth) ⟨d, hread, rfl⟩
    obtain ⟨after, hafter, hd⟩ := exists_blanks d
    rw [hread] at h
    dsimp only [bind, Except.bind] at h
    split at h
    · next hend =>
      obtain rfl := Except.ok.inj h
      rw [List.isEmpty_iff.mp hend, List.append_nil] at hd
      have hblanks := e.blankAfter.append hafter
      refine ⟨e.before, e.text, e.after ++ after, e.blankBefore, hblanks, ?_, hden⟩
      rw [show t = e.written ++ d.rest from ht, hd]
      simp [Element.written]
    · cases h

/-- A text is accepted when it is one value with blanks around it and with containers at most 128
deep, and not otherwise. What is given is what the value means. -/
theorem parse_eq_ok_iff (t : Text) (v : Value) :
    parse t = .ok v ↔ ∃ before text after, Blank before ∧ Blank after ∧
      t = before ++ text ++ after ∧ Denotes 128 text v := by
  constructor
  · exact denotes_of_parse
  · rintro ⟨before, text, after, hbefore, hafter, rfl, h⟩
    exact parse_of_denotes hbefore hafter h

end NativeBuild.Json
