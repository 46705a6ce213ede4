import NativeBuild.Proofs.Json.Acceptance
import NativeBuild.Proofs.Json.Unfinished

/-!
# What stands before an error

Where the reader fails, what it has read so far is the beginning of a text that it accepts. Only the
depth of containers and the range of numbers can keep it from going on: an error of these two kinds
says nothing of what stands before it. The grammar tells how each part that is begun fits into the
whole, by induction on the fuel for values, items and members together. From this follows where in
the text the line and the column of an error are.
-/
namespace NativeBuild.Json

variable {G G' : Text → Prop} {cause : Cause} {s t : Text} {c : Cursor}

/-- A value with blanks around it. -/
def IsElement (depth : ℕ) (t : Text) : Prop :=
  ∃ e : Element, Denotes depth e.text e.value ∧ t = e.written

def IsMember (depth : ℕ) (t : Text) : Prop :=
  ∃ m : Member, Denotes depth m.element.text m.element.value ∧ t = m.written

/-- The parts of a container with commas between them, and the closing byte. -/
def IsRow {σ : Type} (Q : σ → Prop) (written : σ → Text) (close : UInt8) (t : Text) : Prop :=
  ∃ parts : List σ, parts ≠ [] ∧ (∀ p ∈ parts, Q p) ∧
    t = separated (parts.map written) ++ [close]

section Rows

variable {σ : Type} {Q : σ → Prop} {written : σ → Text} {close : UInt8} {x : σ}

theorem IsRow.single (hx : Q x) : IsRow Q written close (written x ++ [close]) :=
  ⟨[x], List.cons_ne_nil _ _, List.forall_mem_singleton.mpr hx, by simp [separated_singleton]⟩

theorem IsRow.cons (hx : Q x) (h : IsRow Q written close t) :
    IsRow Q written close (written x ++ byte ',' :: t) := by
  obtain ⟨parts, hne, hparts, rfl⟩ := h
  refine ⟨x :: parts, List.cons_ne_nil _ _, List.forall_mem_cons.mpr ⟨hx, hparts⟩, ?_⟩
  rw [List.map_cons, separated_cons _ (by simpa using hne)]
  simp

/-- The blanks in front of a row belong to its first part. -/
theorem IsRow.blanks (h : IsRow Q written close t) {blanks : Text}
    (hQ : ∀ x, Q x → ∃ y, Q y ∧ written y = blanks ++ written x) :
    IsRow Q written close (blanks ++ t) := by
  obtain ⟨parts, hne, hparts, rfl⟩ := h
  obtain ⟨x, more, rfl⟩ := List.exists_cons_of_ne_nil hne
  obtain ⟨hx, hmore⟩ := List.forall_mem_cons.mp hparts
  obtain ⟨y, hy, hwritten⟩ := hQ x hx
  refine ⟨y :: more, List.cons_ne_nil _ _, List.forall_mem_cons.mpr ⟨hy, hmore⟩, ?_⟩
  rw [List.map_cons, List.map_cons, hwritten, separated_append, List.append_assoc]

variable {k : Cursor → Except Error (Value × Cursor)} {v : Value}

/-- Behind a part and blanks, a row ends or goes on. -/
theorem scans_followed (hpart : ∀ blanks, Blank blanks → ∃ x, Q x ∧ written x = t ++ blanks)
    (hclose : close ≠ 0x0A) (hpasses : cause.Passes [])
    (hk : ∀ d, Scans (Begins (IsRow Q written close)) d (k d)) (c : Cursor) :
    Scans (fun cause s => Begins (IsRow Q written close) cause (t ++ s)) c
      (followed close cause v k c.skipBlanks) := by
  obtain ⟨blanks, hblanks, htake⟩ := c.takes_skipBlanks
  obtain ⟨x, hx, hwritten⟩ := hpart blanks hblanks
  refine .of_takes htake ?_
  simp only [← List.append_assoc, ← hwritten]
  unfold followed
  split
  · next hcomma =>
    refine .of_takes (Cursor.takes_of_startsWith hcomma (by decide)) ((hk _).mono ?_)
    intro cause s hs
    rw [← List.append_assoc]
    refine hs.append fun u hu => ⟨[], ?_⟩
    simpa using hu.cons hx
  · split
    · next hend => exact .ok _ (Cursor.takes_of_startsWith hend hclose)
    · refine .fail (.more [close] ?_) hpasses
      simpa using IsRow.single hx

end Rows

/-- Behind its first byte, a container ends or its parts begin. -/
theorem scans_opened {first close : UInt8} {depth : ℕ} {empty : Value}
    {k : Cursor → Except Error (Value × Cursor)} (hfirst : c.startsWith first = true)
    (hline : first ≠ 0x0A) (hclose : close ≠ 0x0A)
    (hk : depth < maxDepth → ∀ d, Scans (Begins G') d (k d))
    (hG : depth < maxDepth → ∀ {blanks u}, Blank blanks → G' u → G (first :: (blanks ++ u))) :
    Scans (Begins G) c (opened depth close empty k c) := by
  unfold opened
  split
  · exact .fail .tooDeep rfl
  · next hdepth =>
    have hdepth := Nat.lt_of_not_le hdepth
    obtain ⟨blanks, hblanks, htake⟩ := Cursor.takes_skipBlanks (c.advance 1)
    refine .of_takes ((Cursor.takes_of_startsWith hfirst hline).trans htake) ?_
    split
    · next hend => exact .ok _ (Cursor.takes_of_startsWith hend hclose)
    · refine (hk hdepth _).mono fun cause s hs => hs.append fun u hu => ⟨[], ?_⟩
      simpa using hG hdepth hblanks hu

/-- What stands in an array, and the bracket behind it. -/
abbrev IsItems (depth : ℕ) : Text → Prop :=
  IsRow (fun e : Element => Denotes depth e.text e.value) Element.written (byte ']')

/-- What stands in an object, and the brace behind it. -/
abbrev IsMembers (depth : ℕ) : Text → Prop :=
  IsRow (fun m : Member => Denotes depth m.element.text m.element.value) Member.written
    (byte '\x7d')

variable {fuel depth left : ℕ} {v : Value}

theorem isElement_of_denotes {blanks : Text} (hblanks : Blank blanks) (h : Denotes depth t v) :
    IsElement depth (blanks ++ t) :=
  ⟨⟨blanks, t, [], v, hblanks, .nil⟩, h, by simp [Element.written]⟩

theorem isElement_null (depth : ℕ) : IsElement depth (utf8 "null") :=
  isElement_of_denotes .nil .null

theorem isMember_of_quoted {between : Text} (h : IsQuoted s) (hbetween : Blank between)
    (ht : IsElement depth t) : IsMember depth (s ++ between ++ byte ':' :: t) := by
  obtain ⟨key, meant, hkey, rfl⟩ := h
  obtain ⟨e, hden, rfl⟩ := ht
  exact ⟨⟨[], key, meant, between, e, .nil, hkey, hbetween⟩, hden, by simp [Member.written]⟩

theorem IsElement.isItems (h : IsElement depth t) : IsItems depth (t ++ [byte ']']) := by
  obtain ⟨e, hden, rfl⟩ := h
  exact .single hden

theorem IsMember.isMembers (h : IsMember depth t) : IsMembers depth (t ++ [byte '\x7d']) := by
  obtain ⟨m, hden, rfl⟩ := h
  exact .single hden

theorem IsMember.blanks {blanks : Text} (h : IsMember depth t) (hblanks : Blank blanks) :
    IsMember depth (blanks ++ t) := by
  obtain ⟨m, hden, rfl⟩ := h
  exact ⟨m.within hblanks .nil, hden, by simp⟩

/-- The least that can stand for a member. -/
theorem isMember_null (depth : ℕ) : IsMember depth (utf8 "\"\":null") :=
  ⟨⟨[], [], [], [], ⟨[], utf8 "null", [], .null, .nil, .nil⟩, .nil, .nil, .nil⟩, .null, rfl⟩

theorem IsItems.denotes (h : IsItems depth t) : ∃ v, Denotes (depth + 1) (byte '[' :: t) v := by
  obtain ⟨es, hne, hes, rfl⟩ := h
  exact ⟨_, .array hne hes⟩

theorem IsMembers.denotes (h : IsMembers depth t) :
    ∃ v, Denotes (depth + 1) (byte '\x7b' :: t) v := by
  obtain ⟨ms, hne, hms, rfl⟩ := h
  exact ⟨_, .object hne hms (Dictionary.keeps_ofList _)⟩

theorem scans_literal {word : Text} (hG : G t) (hword : 0x0A ∉ word) (c : Cursor) :
    Scans (Begins G) c (literal word v c) := by
  unfold literal
  split
  · next h =>
    have hc := List.prefix_iff_eq_append.mp (List.isPrefixOf_iff_prefix.mp h)
    exact .ok _ (Cursor.takes_advance hword hc.symm)
  · exact .fail (.more _ hG) rfl

/-- What is read with this fuel is gone over, and what stands before an error is the beginning of
what could be read there. -/
structure ScansAt (fuel : ℕ) : Prop where
  value : ∀ {depth left : ℕ}, depth + left = maxDepth → ∀ c : Cursor,
    Scans (Begins (IsElement left)) c (value fuel depth c)
  items : ∀ {depth left : ℕ}, depth + left = maxDepth → ∀ (found : List Value) (c : Cursor),
    Scans (Begins (IsItems left)) c (items fuel depth found c)
  members : ∀ {depth left : ℕ}, depth + left = maxDepth →
    ∀ (found : Dictionary Value) (c : Cursor),
    Scans (Begins (IsMembers left)) c (members fuel depth found c)

namespace ScansAt

theorem value_succ (ih : ScansAt fuel) (hdepth : depth + left = maxDepth) (c : Cursor) :
    Scans (Begins (IsElement left)) c (Json.value (fuel + 1) depth c) := by
  obtain ⟨blanks, hblanks, htake⟩ := c.takes_skipBlanks
  rw [Json.value_succ]
  generalize c.skipBlanks = d at htake
  -- It is enough to say what stands behind the blanks.
  suffices hscan : Scans (Begins fun t => ∃ v, Denotes left t v) d _ by
    refine .of_takes htake (hscan.mono fun cause s hs => hs.append ?_)
    rintro u ⟨v, hden⟩
    exact ⟨[], by simpa using isElement_of_denotes hblanks hden⟩
  have hnull : ∃ v, Denotes left ([] ++ utf8 "null") v := ⟨_, .null⟩
  have hinner (hlt : depth < maxDepth) :
      depth + 1 + (left - 1) = maxDepth ∧ left - 1 + 1 = left := by
    omega
  cases hrest : d.rest with
  | nil => exact .fail (.more _ hnull) rfl
  | cons b t =>
    have hstart : d.startsWith b = true := by simp [Cursor.startsWith, hrest]
    dsimp only
    split
    · next hb =>
      subst hb
      refine scans_opened hstart (by decide) (by decide)
        (fun hlt => ih.members (hinner hlt).1 []) fun hlt _ _ hblanks hu => ?_
      rw [← (hinner hlt).2]
      exact IsMembers.denotes (hu.blanks fun m hm => ⟨m.within hblanks .nil, hm, by simp⟩)
    split
    · next hb =>
      subst hb
      refine scans_opened hstart (by decide) (by decide)
        (fun hlt => ih.items (hinner hlt).1 []) fun hlt _ _ hblanks hu => ?_
      rw [← (hinner hlt).2]
      exact IsItems.denotes (hu.blanks fun e he => ⟨e.between hblanks .nil, he, by simp⟩)
    split
    · next hb =>
      subst hb
      refine (scans_string hstart).bind (fun _ _ hs => hs.imp ?_) fun _ e _ _ _ => .ok _ (.refl e)
      rintro _ ⟨written, meant, hchars, rfl⟩
      exact ⟨_, .string hchars⟩
    split
    · exact scans_literal hnull (by decide) d
    split
    · exact scans_literal hnull (by decide) d
    split
    · exact scans_literal hnull (by decide) d
    split
    · refine (scans_number d).mono fun cause s hs => hs.imp ?_
      rintro _ ⟨n, v, isNumber, means⟩
      exact ⟨v, .number isNumber means⟩
    · exact .fail (.more _ hnull) rfl

theorem items_succ (ih : ScansAt fuel) (hdepth : depth + left = maxDepth) (found : List Value)
    (c : Cursor) : Scans (Begins (IsItems left)) c (Json.items (fuel + 1) depth found c) := by
  rw [Json.items_succ]
  refine (ih.value hdepth c).bind (fun _ s hs => ?_) fun v d t hv htake => ?_
  · exact hs.append (s := []) fun u hu => ⟨_, hu.isItems⟩
  · obtain ⟨e, hden, rfl, hc⟩ := (soundAt fuel).value hdepth ⟨d, hv, rfl⟩
    obtain rfl := htake.text_eq hc
    refine scans_followed (fun blanks hblanks => ?_) (by decide) ?_ (ih.items hdepth _) d
    · exact ⟨e.between .nil hblanks, hden, by simp⟩
    · rfl

theorem member (ih : ScansAt fuel) (hdepth : depth + left = maxDepth) (c : Cursor) :
    Scans (Begins (IsMember left)) c (Json.member fuel depth c) := by
  have hnull := isElement_null left
  unfold Json.member
  split
  · exact .fail (.more _ (isMember_null left)) rfl
  · next hquote =>
    have hquote : c.startsWith (byte '"') = true := by simpa using hquote
    have hc := (Cursor.startsWith_iff _ c).mp hquote
    refine (scans_string hquote).bind (fun _ s hs => ?_) fun meant d t hkey htake => ?_
    · refine hs.append (s := []) fun u hu => ⟨byte ':' :: utf8 "null", ?_⟩
      simpa using isMember_of_quoted hu .nil hnull
    obtain ⟨key, hchars, hrest⟩ := string_of_reads hc ⟨d, hkey, rfl⟩
    obtain rfl : t = byte '"' :: (key ++ [byte '"']) := htake.text_eq (hc.trans (by simp [hrest]))
    have hquoted : IsQuoted (byte '"' :: (key ++ [byte '"'])) := ⟨key, meant, hchars, rfl⟩
    generalize byte '"' :: (key ++ [byte '"']) = quoted at hquoted
    obtain ⟨between, hbetween, hskip⟩ := d.takes_skipBlanks
    refine .of_takes hskip ?_
    dsimp only
    split
    · refine .fail (.more (byte ':' :: utf8 "null") ?_) rfl
      simpa using isMember_of_quoted hquoted hbetween hnull
    · next hcolon =>
      have hcolon : d.skipBlanks.startsWith (byte ':') = true := by simpa using hcolon
      refine .of_takes (Cursor.takes_of_startsWith hcolon (by decide)) ?_
      refine (ih.value hdepth _).bind (fun _ s hs => ?_) fun v e _ _ _ => .ok _ (.refl e)
      simp only [← List.append_assoc]
      refine hs.append fun u hu => ⟨[], ?_⟩
      simpa using isMember_of_quoted hquoted hbetween hu

theorem members_succ (ih : ScansAt fuel) (hdepth : depth + left = maxDepth)
    (found : Dictionary Value) (c : Cursor) :
    Scans (Begins (IsMembers left)) c (Json.members (fuel + 1) depth found c) := by
  obtain ⟨before, hbefore, hskip⟩ := c.takes_skipBlanks
  rw [Json.members_succ]
  refine .of_takes hskip ((ih.member hdepth _).bind (fun _ s hs => ?_) fun entry d t hm htake => ?_)
  · exact hs.append fun u hu => ⟨_, (hu.blanks hbefore).isMembers⟩
  · obtain ⟨m, hden, rfl, hc⟩ := (soundAt fuel).member hdepth ⟨d, hm, rfl⟩
    obtain rfl := htake.text_eq hc
    simp only [← List.append_assoc]
    refine scans_followed (fun blanks hblanks => ?_) (by decide) ?_ (ih.members hdepth _) d
    · exact ⟨m.within hbefore hblanks, hden, by simp⟩
    · rfl

end ScansAt

theorem scansAt (fuel : ℕ) : ScansAt fuel := by
  induction fuel with
  | zero =>
    refine ⟨fun _ c => ?_, fun _ found c => ?_, fun _ found c => ?_⟩
    · rw [value]
      exact .fail (.more _ (isElement_null _)) rfl
    · rw [items]
      exact .fail (.more _ (isElement_null _).isItems) rfl
    · rw [members]
      exact .fail (.more _ (isMember_null _).isMembers) rfl
  | succ fuel ih => exact ⟨ih.value_succ, ih.items_succ, ih.members_succ⟩

theorem IsElement.parse (h : IsElement maxDepth t) : ∃ v, parse t = .ok v := by
  obtain ⟨e, hden, rfl⟩ := h
  exact ⟨e.value, parse_of_denotes e.blankBefore e.blankAfter hden⟩

theorem refuses_of_parse {e : Error} (h : parse t = .error e) : ∃ seen passed d,
    Refuses (Begins fun s => ∃ v, parse s = .ok v) (Cursor.start t) e seen passed d := by
  have hscan := ((scansAt (2 * t.length + 1)).value (Nat.zero_add maxDepth) (Cursor.start t)).mono
    fun _ s hs => hs.imp fun _ hu => hu.parse
  rw [parse_eq] at h
  cases hread : value (2 * t.length + 1) 0 (Cursor.start t) with
  | error cause =>
    rw [hread] at h hscan
    obtain rfl := Except.error.inj h
    exact hscan
  | ok read =>
    obtain ⟨v, d⟩ := read
    obtain ⟨e, hden, -, hc⟩ := (soundAt _).value (Nat.zero_add maxDepth) ⟨d, hread, rfl⟩
    rw [hread] at h hscan
    obtain ⟨text, htake⟩ := hscan
    obtain rfl := htake.text_eq hc
    obtain ⟨after, hafter, hskip⟩ := d.takes_skipBlanks
    dsimp only [bind, Except.bind] at h
    split at h
    · cases h
    · obtain rfl := Except.error.inj h
      have helement : IsElement maxDepth (e.written ++ after ++ []) :=
        ⟨e.between .nil hafter, hden, by simp⟩
      exact ⟨_, [], _, htake.trans hskip, List.nil_prefix, rfl, rfl, rfl, .more [] helement.parse⟩

/-- The line and the column of an error are those of a place in the text, or as many bytes behind it
as the reader has gone over in vain. Up to that place the text is the beginning of one that is
accepted, unless containers are too deep or a number is out of range. -/
theorem error_position {e : Error} (h : parse t = .error e) :
    ∃ seen passed rest, t = seen ++ passed ++ rest ∧ e.line = lineOf seen ∧
      e.column = columnOf seen + passed.length ∧ e.cause.Passes passed ∧
      (e.cause ≠ .tooDeep → e.cause ≠ .outOfRange →
        (∃ more v, parse (seen ++ more) = .ok v) ∨
          e.cause = .expectedExponent ∧ OutOfReach seen) := by
  obtain ⟨seen, passed, d, hrefuses⟩ := refuses_of_parse h
  obtain ⟨rest, hrest⟩ := hrefuses.ahead
  obtain ⟨hline, hcolumn⟩ := hrefuses.takes.behind (Cursor.behind_start t)
  have ht : t = seen ++ d.rest := hrefuses.takes.rest
  refine ⟨seen, passed, rest, ?_, ?_, ?_, hrefuses.passes, hrefuses.begins.elim⟩
  · rw [ht, ← hrest, List.append_assoc]
  · rw [hrefuses.line, hline, List.nil_append]
  · rw [hrefuses.column, hcolumn, List.nil_append]

/-- A tab in a string in the third line. -/
theorem error_position_of_tab :
    parse (utf8 "[1,\n 2,\n \"a\tb\"]") = .error ⟨.controlCharacter, 3, 5⟩ ∧
      ∃ seen passed rest, utf8 "[1,\n 2,\n \"a\tb\"]" = seen ++ passed ++ rest ∧
        3 = lineOf seen ∧ 5 = columnOf seen + passed.length ∧
        Cause.controlCharacter.Passes passed ∧
        (Cause.controlCharacter ≠ .tooDeep → Cause.controlCharacter ≠ .outOfRange →
          (∃ more v, parse (seen ++ more) = .ok v) ∨
            Cause.controlCharacter = .expectedExponent ∧ OutOfReach seen) :=
  ⟨rfl, error_position (e := ⟨.controlCharacter, 3, 5⟩) rfl⟩

/-- A line feed in a string is reported behind the end of its line. -/
example : parse (utf8 "[\"\n\"]") = .error ⟨.controlCharacter, 1, 4⟩ := rfl

end NativeBuild.Json
