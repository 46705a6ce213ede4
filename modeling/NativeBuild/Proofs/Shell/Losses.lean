import Mathlib.Data.List.TakeDrop
import NativeBuild.Proofs.Shell.Options

/-!
# What words lose

Quotes and backslashes are gone from the word that is read, and what stands behind a dollar sign may
be replaced. A space is never lost: it ends the word, or it stays. So a word that a space follows is
read as it stands only if the shell does not act on any byte of it.
-/
namespace NativeBuild.Shell

/-- The bytes that quote outside quotes, and the back quote, which starts a command. -/
def isQuoting (b : UInt8) : Bool := b == byte '"' || b == 0x27 || b == byte '\\' || b == 0x60

/-- The bytes behind a dollar sign with which an expansion starts. -/
def isExpandable (b : UInt8) : Bool :=
  b == byte '(' || b == 0x7B || isNameStart b || Text.isDigit b || isSpecialName b

/-- Outside quotes the shell acts on a byte of the text: it ends words, it quotes, or it starts an
expansion. -/
def isActive : Text → Bool
  | [] => false
  | b :: t => endsWord b || isQuoting b || (b == byte '$' && t.head?.any isExpandable) || isActive t

theorem isActive_of_append {s t : Text} (h : isActive (s ++ t) = false) : isActive t = false := by
  induction s with
  | nil => exact h
  | cons b s ih =>
    rw [List.cons_append, isActive, Bool.or_eq_false_iff] at h
    exact ih h.2

theorem isActive_of_isInert {t : Text} (h : ∀ b ∈ t, isInert b = true) : isActive t = false := by
  have hquoting : ∀ c ∈ [byte '"', 0x27, byte '\\', 0x60, byte '$'], isInert c = false := by
    decide +kernel
  induction t with
  | nil => rfl
  | cons b t ih =>
    have hb := h b List.mem_cons_self
    have hne : ∀ c ∈ [byte '"', 0x27, byte '\\', 0x60, byte '$'], b ≠ c := fun c hc =>
      ne_of_isInert hb (hquoting c hc)
    simp only [List.mem_cons, List.not_mem_nil, or_false, forall_eq_or_imp, forall_eq] at hne
    obtain ⟨hdouble, hsingle, hslash, hback, hdollar⟩ := hne
    simp [isActive, isQuoting, not_endsWord_of_isInert hb, hdouble, hsingle, hslash, hback, hdollar,
      ih fun c hc => h c (List.mem_cons_of_mem b hc)]

/-- A text that stands before another one, and what is left of it in a word that is literal. -/
structure Leaves (inside : Bool) (t out rest : Text) : Prop where
  length_le : out.length ≤ t.length
  spaces : out.count 0x20 = t.count 0x20
  not_isActive : inside = false → rest ≠ [] → out.length = t.length → isActive t = false

namespace Leaves

variable {inside inside' : Bool} {t out rest : Text} {b : UInt8}

theorem nil (inside : Bool) (rest : Text) : Leaves inside [] [] rest :=
  ⟨Nat.le_refl 0, rfl, fun _ _ _ => rfl⟩

/-- Between quotes nothing is said of the bytes that stay. -/
theorem quoted (h : Leaves inside t out rest) : Leaves true t out rest := ⟨h.1, h.2, nofun⟩

/-- A byte that stays. -/
theorem keep (h : Leaves inside t out rest) (hends : inside = false → endsWord b = false)
    (hquoting : inside = false → isQuoting b = false)
    (hdollar : inside = false → b = byte '$' → t.head?.any isExpandable = false) :
    Leaves inside (b :: t) (b :: out) rest := by
  refine ⟨Nat.succ_le_succ h.length_le, by simp [List.count_cons, h.spaces], ?_⟩
  intro hinside hrest hlength
  have ht := h.not_isActive hinside hrest (Nat.succ.inj hlength)
  by_cases hb : b = byte '$'
  · simp [isActive, hends hinside, hquoting hinside, hdollar hinside hb, ht]
  · simp [isActive, hends hinside, hquoting hinside, hb, ht]

/-- A byte that is lost. -/
theorem lose (h : Leaves inside' t out rest) (hb : b ≠ 0x20) : Leaves inside (b :: t) out rest where
  length_le := Nat.le_succ_of_le h.length_le
  spaces := by rw [h.spaces, List.count_cons_of_ne hb]
  not_isActive _ _ hlength := by
    have hle := h.length_le
    rw [hlength, List.length_cons] at hle
    omega

theorem keepAll (h : Leaves true t out rest) (s : Text) :
    Leaves true (s ++ t) (s ++ out) rest := by
  induction s with
  | nil => exact h
  | cons b s ih => exact ih.keep nofun nofun nofun

end Leaves

theorem of_literal?_append {w w' : Word} {out : Text} (h : literal? (w ++ w') = some out) :
    ∃ before more, literal? w = some before ∧ literal? w' = some more ∧ out = before ++ more := by
  induction w generalizing out with
  | nil => exact ⟨[], out, rfl, h, rfl⟩
  | cons p w ih =>
    cases p with
    | byte quoted b =>
      obtain ⟨out, hout, rfl⟩ :=
        Option.map_eq_some_iff.mp (show (literal? (w ++ w')).map _ = _ from h)
      obtain ⟨before, more, hbefore, hmore, rfl⟩ := ih hout
      refine ⟨b :: before, more, ?_, hmore, rfl⟩
      show (literal? w).map _ = _
      rw [hbefore]
      rfl
    | emptyQuotes => exact ih h
    | parameter | command | arithmetic => cases h

theorem of_bind_ok {α β : Type} {r : Except SyntaxError α} {k : α → Except SyntaxError β} {b : β}
    (h : r >>= k = .ok b) : ∃ a, r = .ok a ∧ k a = .ok b := by
  cases r with
  | error e => cases h
  | ok a => exact ⟨a, rfl, h⟩

theorem of_toOption {α : Type} {r : Except SyntaxError α} {a : α} (h : r.toOption = some a) :
    r = .ok a := by
  cases r with
  | error e => cases h
  | ok b => rw [Option.some.inj h]

/-- A dollar sign stands for itself unless an expansion starts with it. -/
theorem of_dollar {quoted : Bool} {t rest : Text} {p : Part} (h : dollar quoted t = .ok (p, rest)) :
    literal? [p] = none ∨
      p = .byte true (byte '$') ∧ rest = t ∧ t.head?.any isExpandable = false := by
  cases t with
  | nil =>
    obtain ⟨rfl, rfl⟩ := Prod.mk.inj (Except.ok.inj h)
    exact .inr ⟨rfl, rfl, rfl⟩
  | cons b t =>
    rw [dollar] at h
    split at h
    · obtain ⟨⟨script, left⟩, -, h⟩ := of_bind_ok h
      dsimp only at h
      split at h <;> cases h <;> exact .inl rfl
    · next hopen =>
      split at h
      · split at h
        · split at h <;> cases h
          exact .inl rfl
        · cases h
      · next hbrace =>
        split at h
        · cases h
          exact .inl rfl
        · next hname =>
          split at h
          · cases h
            exact .inl rfl
          · next hspecial =>
            cases h
            refine .inr ⟨rfl, rfl, ?_⟩
            simp_all [isExpandable]

/-- One step of reading a word: whether quotes are open, and the text, before the step and behind it,
and the parts that it adds. -/
inductive Step : Bool → Text → Bool → Word → Text → Prop
  | plain {b : UInt8} {t : Text} (hends : endsWord b = false) (hquoting : isQuoting b = false)
    (hdollar : b ≠ byte '$') : Step false (b :: t) false [.byte false b] t
  | inner {b : UInt8} {t : Text} : Step true (b :: t) true [.byte true b] t
  | idleDollar {inside : Bool} {t : Text} (h : t.head?.any isExpandable = false) :
    Step inside (byte '$' :: t) inside [.byte true (byte '$')] t
  | expansion {inside : Bool} {t t' : Text} {added : Word} (h : literal? added = none) :
    Step inside t inside added t'
  | openQuotes {t : Text} : Step false (byte '"' :: t) true [] t
  | closeQuotes {t : Text} : Step true (byte '"' :: t) false [] t
  | emptyQuotes {t : Text} : Step false (byte '"' :: byte '"' :: t) false [.emptyQuotes] t
  | singleQuotes {v t : Text} : Step false (0x27 :: (v ++ 0x27 :: t)) false (quotedWord v) t
  | joinedLines {inside : Bool} {t : Text} : Step inside (byte '\\' :: 0x0A :: t) inside [] t
  | escaped {inside : Bool} {c : UInt8} {t : Text} :
    Step inside (byte '\\' :: c :: t) inside [.byte true c] t
  | lastBackslash {inside : Bool} :
    Step inside [byte '\\'] inside [.byte true (byte '\\')] []

/-- A text up to a byte, and what stands behind that. -/
theorem eq_append_of_span {t v behind : Text} {b c : UInt8}
    (h : t.span (· != b) = (v, c :: behind)) : t = v ++ b :: behind := by
  rw [List.span_eq_takeWhile_dropWhile] at h
  obtain ⟨hv, hdrop⟩ := Prod.mk.inj h
  have hhead := List.head?_dropWhile_not (· != b) t
  rw [hdrop] at hhead
  have hc : c = b := by simpa using hhead
  calc t = t.takeWhile (· != b) ++ t.dropWhile (· != b) := List.takeWhile_append_dropWhile.symm
    _ = v ++ b :: behind := by rw [hv, hdrop, hc]

variable {w : Word} {rest : Text}

theorem step_of_scan {fuel : Nat} {inside : Bool} {parts : Word} {t : Text}
    (h : scan (fuel + 1) inside parts t = .ok (w, rest)) : w = parts ∧ rest = t ∨
      ∃ inside' added t', Step inside t inside' added t' ∧
        scan fuel inside' (parts ++ added) t' = .ok (w, rest) := by
  rw [scan.eq_def] at h
  cases t with
  | nil =>
    cases inside with
    | true => cases h
    | false =>
      obtain ⟨rfl, rfl⟩ := Prod.mk.inj (Except.ok.inj h)
      exact .inl ⟨rfl, rfl⟩
  | cons b t =>
    dsimp only at h
    split at h
    · next hb =>
      obtain rfl := eq_of_beq hb
      obtain ⟨⟨p, left⟩, hp, hleft⟩ := of_bind_ok h
      obtain hnone | ⟨rfl, rfl, hidle⟩ := of_dollar hp
      · exact .inr ⟨_, _, _, .expansion hnone, hleft⟩
      · exact .inr ⟨_, _, _, .idleDollar hidle, hleft⟩
    next hdollar =>
    split at h
    · obtain ⟨⟨script, left⟩, -, hleft⟩ := of_bind_ok h
      exact .inr ⟨_, _, _, .expansion rfl, hleft⟩
    next hback =>
    split at h
    · next hb =>
      obtain rfl := eq_of_beq hb
      cases inside with
      | true => exact .inr ⟨_, _, _, .closeQuotes, by rwa [List.append_nil]⟩
      | false =>
        rw [if_neg Bool.false_ne_true] at h
        split at h
        · next hhead =>
          obtain ⟨t, rfl⟩ : ∃ t', t = byte '"' :: t' := List.head?_eq_some_iff.mp hhead
          exact .inr ⟨_, _, _, .emptyQuotes, h⟩
        · exact .inr ⟨_, _, _, .openQuotes, by rwa [List.append_nil]⟩
    next hdouble =>
    split at h
    · next hb =>
      obtain rfl := eq_of_beq hb
      cases t with
      | nil => exact .inr ⟨_, _, _, .lastBackslash, h⟩
      | cons c t =>
        dsimp only at h
        split at h
        · next hfeed =>
          obtain rfl := eq_of_beq hfeed
          exact .inr ⟨_, _, _, .joinedLines, by rwa [List.append_nil]⟩
        · split at h
          · next hinner =>
            obtain ⟨rfl, -⟩ := Bool.and_eq_true_iff.mp hinner
            exact .inr ⟨_, _, _, .inner, h⟩
          · exact .inr ⟨_, _, _, .escaped, h⟩
    next hslash =>
    split at h
    · next hinside =>
      subst hinside
      exact .inr ⟨_, _, _, .inner, h⟩
    next hinside =>
    obtain rfl := Bool.eq_false_iff.mpr hinside
    split at h
    · next hb =>
      obtain rfl := eq_of_beq hb
      split at h
      · cases h
      · next v c t' hspan =>
        obtain rfl := eq_append_of_span hspan
        exact .inr ⟨_, _, _, .singleQuotes, h⟩
    next hsingle =>
    split at h
    · obtain ⟨rfl, rfl⟩ := Prod.mk.inj (Except.ok.inj h)
      exact .inl ⟨rfl, rfl⟩
    · next hends =>
      refine .inr ⟨_, _, _, .plain (Bool.eq_false_iff.mpr hends) ?_ (by simpa using hdollar), h⟩
      simp_all [isQuoting]

theorem Leaves.of_step {inside inside' : Bool} {t t' read text more : Text} {added : Word}
    (hstep : Step inside t inside' added t') (htext : literal? added = some text)
    (ht : t' = read ++ rest) (h : Leaves inside' read more rest) :
    ∃ read', t = read' ++ rest ∧ Leaves inside read' (text ++ more) rest := by
  cases hstep with
  | @plain b t hends hquoting hdollar =>
    obtain rfl := Option.some.inj htext
    subst ht
    exact ⟨b :: read, rfl,
      h.keep (fun _ => hends) (fun _ => hquoting) fun _ hb => absurd hb hdollar⟩
  | @inner b t =>
    obtain rfl := Option.some.inj htext
    subst ht
    exact ⟨b :: read, rfl, h.keep nofun nofun nofun⟩
  | @idleDollar _ t hidle =>
    obtain rfl := Option.some.inj htext
    subst ht
    refine ⟨byte '$' :: read, rfl, h.keep (fun _ => by decide) (fun _ => by decide) fun _ _ => ?_⟩
    cases read with
    | nil => rfl
    | cons c read => exact hidle
  | expansion hnone => cases hnone.symm.trans htext
  | openQuotes =>
    obtain rfl := Option.some.inj htext
    subst ht
    exact ⟨byte '"' :: read, rfl, h.lose (by decide)⟩
  | closeQuotes =>
    obtain rfl := Option.some.inj htext
    subst ht
    exact ⟨byte '"' :: read, rfl, h.lose (by decide)⟩
  | emptyQuotes =>
    obtain rfl := Option.some.inj htext
    subst ht
    have hclosed : Leaves true (byte '"' :: read) more rest := h.lose (by decide)
    exact ⟨byte '"' :: byte '"' :: read, rfl, hclosed.lose (by decide)⟩
  | @singleQuotes v t =>
    obtain rfl := Option.some.inj ((literal?_quotedWord v).symm.trans htext)
    subst ht
    have hclosed : Leaves true (0x27 :: read) more rest := h.lose (by decide)
    exact ⟨0x27 :: (v ++ 0x27 :: read), by simp, (hclosed.keepAll v).lose (by decide)⟩
  | joinedLines =>
    obtain rfl := Option.some.inj htext
    subst ht
    have hfeed : Leaves true (0x0A :: read) more rest := h.lose (by decide)
    exact ⟨byte '\\' :: 0x0A :: read, rfl, hfeed.lose (by decide)⟩
  | @escaped _ c t =>
    obtain rfl := Option.some.inj htext
    subst ht
    have hc : Leaves true (c :: read) (c :: more) rest := h.quoted.keep nofun nofun nofun
    exact ⟨byte '\\' :: c :: read, rfl, hc.lose (by decide)⟩
  | lastBackslash =>
    obtain rfl := Option.some.inj htext
    obtain ⟨rfl, rfl⟩ := List.append_eq_nil_iff.mp ht.symm
    have hlast : Leaves true [byte '\\'] (byte '\\' :: more) [] := h.quoted.keep nofun nofun nofun
    exact ⟨[byte '\\'], rfl, hlast.length_le, hlast.spaces, fun _ hrest => absurd rfl hrest⟩

/-- What is left of the text that a word was read from, if nothing has to be put in place of
anything. -/
theorem leaves_of_scan {fuel : Nat} {inside : Bool} {parts : Word} {t out : Text}
    (h : scan fuel inside parts t = .ok (w, rest)) (hw : literal? w = some out) :
    ∃ before more read, literal? parts = some before ∧ out = before ++ more ∧ t = read ++ rest ∧
      Leaves inside read more rest := by
  induction fuel generalizing inside parts t with
  | zero => cases h
  | succ fuel ih =>
    obtain ⟨rfl, rfl⟩ | ⟨inside', added, t', hstep, hnext⟩ := step_of_scan h
    · exact ⟨out, [], [], hw, (List.append_nil out).symm, rfl, .nil _ _⟩
    · obtain ⟨both, more, read, hboth, rfl, ht, hread⟩ := ih hnext
      obtain ⟨before, text, hbefore, htext, rfl⟩ := of_literal?_append hboth
      obtain ⟨read', hread', hleaves⟩ := hread.of_step hstep htext ht
      exact ⟨before, text ++ more, read', hbefore, List.append_assoc .., hread', hleaves⟩

/-- A word that is read as it stands up to a space: the space ends it, and the shell acts on none of
its bytes. -/
theorem of_word {v more : Text} (h : word (v ++ 0x20 :: more) = .ok (w, rest))
    (hw : literal? w = some v) : rest = 0x20 :: more ∧ isActive v = false := by
  obtain ⟨before, out, read, hbefore, hv, hread, hleaves⟩ := leaves_of_scan h hw
  obtain rfl := Option.some.inj hbefore
  obtain rfl : v = out := hv
  obtain ⟨behind, rfl, hbehind⟩ | ⟨behind, rfl, rfl⟩ := List.append_eq_append_iff.mp hread
  · cases behind with
    | nil =>
      obtain rfl : 0x20 :: more = rest := hbehind
      rw [List.append_nil] at hleaves
      exact ⟨rfl, hleaves.not_isActive rfl (List.cons_ne_nil _ _) rfl⟩
    | cons b behind =>
      -- The space behind the word would be in it.
      obtain ⟨rfl, -⟩ := List.cons.inj hbehind
      have hspaces := hleaves.spaces
      rw [List.count_append, List.count_cons_self] at hspaces
      omega
  · have hlength := hleaves.length_le
    rw [List.length_append] at hlength
    obtain rfl := List.eq_nil_of_length_eq_zero (show behind.length = 0 by omega)
    rw [List.append_nil] at hleaves ⊢
    exact ⟨rfl, hleaves.not_isActive rfl (List.cons_ne_nil _ _) rfl⟩

/-- Splitting takes a text that a space follows for one word as it stands only if the shell acts on
none of its bytes. It then goes on at the space. -/
theorem of_wordsFrom {fuel : Nat} {b : UInt8} {t more : Text} {fields : List Text}
    (hspace : b ≠ 0x20) (htab : b ≠ 0x09)
    (h : wordsFrom (fuel + 1) (0x20 :: (b :: t ++ 0x20 :: more)) = some ((b :: t) :: fields)) :
    isActive (b :: t) = false ∧ wordsFrom fuel (0x20 :: more) = some fields := by
  have hdrop : (0x20 :: (b :: t ++ 0x20 :: more)).dropWhile (fun b => b == 0x20 || b == 0x09) =
      b :: (t ++ 0x20 :: more) := by
    simp [hspace, htab]
  rw [wordsFrom, hdrop] at h
  dsimp only at h
  split at h
  · cases h
  · obtain ⟨⟨w, rest⟩, hread, h⟩ := Option.bind_eq_some_iff.mp h
    obtain ⟨text, hliteral, h⟩ := Option.bind_eq_some_iff.mp h
    obtain ⟨others, hothers, h⟩ := Option.bind_eq_some_iff.mp h
    obtain ⟨rfl, rfl⟩ := List.cons.inj (Option.some.inj h)
    have hword : word (b :: t ++ 0x20 :: more) = .ok (w, rest) := of_toOption hread
    obtain ⟨rfl, hactive⟩ := of_word hword hliteral
    exact ⟨hactive, hothers⟩

/-- No blanks stand before an argument. -/
theorem Argument.dropWhile_written (a : Argument) (h : a.written ≠ []) (rest : Text) :
    (a.written ++ rest).dropWhile (fun b => b == 0x20 || b == 0x09) = a.written ++ rest := by
  obtain ⟨b, t, heq, -, hspace, htab, -⟩ := a.starts h
  rw [heq]
  simp [hspace, htab]

namespace Item

/-- An option whose value stands as it is. -/
def plain (name : String) (value : Text) : Item := { name := utf8 name ++ value }

/-- A name without a meaning for the shell. -/
def IsName (name : String) : Prop := utf8 name ≠ [] ∧ (utf8 name).all isInert = true

instance (name : String) : Decidable (IsName name) :=
  inferInstanceAs (Decidable (utf8 name ≠ [] ∧ (utf8 name).all isInert = true))

theorem IsLiteral.written_ne_nil {i : Item} (h : i.IsLiteral) : i.written ≠ [] :=
  List.append_ne_nil_of_left_ne_nil h.ne_nil _

section Names

variable {name : String} (hname : IsName name) {value : Text}
include hname

theorem isLiteral_name : IsLiteral { name := utf8 name } :=
  ⟨hname.1, List.all_eq_true.mp hname.2, by simp⟩

theorem isLiteral_valued (hvalue : 0 ∉ value) : (valued name value).IsLiteral :=
  ⟨hname.1, List.all_eq_true.mp hname.2, by simpa [valued] using hvalue⟩

theorem isLiteral_plain (hvalue : ∀ b ∈ value, isInert b = true) : (plain name value).IsLiteral := by
  refine ⟨List.append_ne_nil_of_left_ne_nil hname.1 _, fun b hb => ?_, by simp [plain]⟩
  obtain hb | hb := List.mem_append.mp hb
  · exact List.all_eq_true.mp hname.2 b hb
  · exact hvalue b hb

end Names

/-- The option is literal, or its value stands as it is, whatever bytes that is made of. -/
def IsOption (i : Item) : Prop := i.IsLiteral ∨ ∃ name value, i = plain name value ∧ IsName name

theorem IsOption.written_ne_nil {i : Item} (h : i.IsOption) : i.written ≠ [] := by
  obtain h | ⟨name, value, rfl, hname⟩ := h
  · exact h.written_ne_nil
  · exact List.append_ne_nil_of_left_ne_nil (List.append_ne_nil_of_left_ne_nil hname.1 _) _

/-- Options as they stand on a command line, each with a space before it. -/
def line (items : List Item) : Text := items.flatMap fun i => 0x20 :: i.written

theorem line_cons (i : Item) (items : List Item) :
    line (i :: items) = 0x20 :: i.written ++ line items := List.flatMap_cons

theorem endsWord_line (items : List Item) : ∀ b ∈ (line items).head?, endsWord b = true := by
  cases items with
  | nil => simp [line]
  | cons i items => simpa [line_cons] using show endsWord 0x20 = true by decide

/-- Options that arrive with their values: the shell acts on none that stands as it is, if the last
option is literal. -/
theorem not_isActive_of_wordsFrom {items : List Item} (hitems : ∀ i ∈ items, i.IsOption)
    (hlast : ∀ i ∈ items.getLast?, i.IsLiteral) {fuel : Nat}
    (h : wordsFrom fuel (line items) = some (items.map meant)) :
    ∀ i ∈ items, isActive i.name = false := by
  induction items generalizing fuel with
  | nil => simp
  | cons i items ih =>
    cases fuel with
    | zero => cases h
    | succ fuel =>
      have hothers (hmore : wordsFrom fuel (line items) = some (items.map meant)) :
          ∀ i ∈ items, isActive i.name = false :=
        ih (fun j hj => hitems j (.tail _ hj))
          (fun j hj => hlast j (List.mem_getLast?_cons hj)) hmore
      rw [line_cons, List.map_cons] at h
      by_cases hi : i.IsLiteral
      · have ha : (i.argument hi).written ≠ [] := hi.written_ne_nil
        have hdrop : (0x20 :: i.written ++ line items).dropWhile
            (fun b => b == 0x20 || b == 0x09) = (i.argument hi).written ++ line items := by
          rw [List.cons_append, List.dropWhile_cons_of_pos (by decide)]
          exact (i.argument hi).dropWhile_written ha _
        rw [wordsFrom_written fuel hdrop ha (endsWord_line items), Option.map_eq_some_iff] at h
        obtain ⟨fields, hfields, hcons⟩ := h
        rw [(List.cons.inj hcons).2] at hfields
        exact List.forall_mem_cons.mpr ⟨isActive_of_isInert hi.inert, hothers hfields⟩
      · obtain ⟨name, value, rfl, hname⟩ := (hitems i List.mem_cons_self).resolve_left hi
        cases items with
        | nil => exact absurd (hlast _ rfl) hi
        | cons j items =>
          obtain ⟨b, t, hb⟩ := List.exists_cons_of_ne_nil hname.1
          have hinert : isInert b = true := List.all_eq_true.mp hname.2 b (by simp [hb])
          have hstands : (plain name value).written = b :: (t ++ value) ∧
              (plain name value).meant = b :: (t ++ value) ∧
              (plain name value).name = b :: (t ++ value) := by
            simp [plain, written, meant, hb]
          rw [hstands.1, hstands.2.1, line_cons] at h
          obtain ⟨hactive, hmore⟩ := of_wordsFrom (ne_of_isInert hinert (by decide))
            (ne_of_isInert hinert (by decide)) h
          exact List.forall_mem_cons.mpr ⟨hstands.2.2 ▸ hactive, hothers hmore⟩

end Item

end NativeBuild.Shell

namespace NativeBuild

open Shell Item

/-- Where options arrive at a process with their values, the shell acts on none that stands as it
is, if the last option is literal. -/
theorem ProcessSpec.not_isActive_of_words? {s : ProcessSpec} (hexecutable : 0 ∉ s.executable)
    {items : List Item} (harguments : s.arguments = items.map written)
    (hitems : ∀ i ∈ items, i.IsOption) (hlast : ∀ i ∈ items.getLast?, i.IsLiteral)
    (h : words? s.commandLine = some (s.executable :: items.map meant)) :
    ∀ i ∈ items, isActive i.name = false := by
  let first := Argument.ofExecutable s.executable hexecutable
  have hfirst : first.written ≠ [] := List.append_ne_nil_of_right_ne_nil _ (List.cons_ne_nil _ _)
  have hkept : (items.map written).filter (· ≠ []) = items.map written := by
    rw [List.filter_eq_self]
    intro t ht
    obtain ⟨i, hi, rfl⟩ := List.mem_map.mp ht
    simpa using (hitems i hi).written_ne_nil
  have hline : s.commandLine = first.written ++ line items := by
    rw [s.commandLine_eq_flatMap, harguments, hkept, List.flatMap_map]
    rfl
  have hdrop : s.commandLine.dropWhile (fun b => b == 0x20 || b == 0x09) =
      first.written ++ line items := by
    rw [hline, first.dropWhile_written hfirst]
  rw [words?, wordsFrom_written _ hdrop hfirst (endsWord_line items), Option.map_eq_some_iff] at h
  obtain ⟨fields, hfields, hcons⟩ := h
  rw [(List.cons.inj hcons).2] at hfields
  exact not_isActive_of_wordsFrom hitems hlast hfields

end NativeBuild
