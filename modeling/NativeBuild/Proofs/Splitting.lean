import Mathlib.Data.List.TakeWhile
import NativeBuild.Proofs.Lines

/-!
# Splitting at delimiters

A text is split in rounds. Each round takes what stands between the last delimiter and the next
one, so there is one round for each delimiter and one more for what stands behind the last of them.
What is taken are the longest stretches without a delimiter, in their order. Where nothing stands
between two delimiters, or at an end of the text, nothing is taken. So parts that are joined by
delimiters are the parts that the whole is split into, if none of them is empty or holds a
delimiter itself.
-/
namespace NativeBuild.Text

section Words

variable {cut : UInt8 → Bool}

/-- Pieces on both sides of a cut. -/
theorem pieces_append_cut {b : UInt8} (hb : cut b = true) (s t : Text) :
    pieces cut (s ++ b :: t) = pieces cut s ++ pieces cut t := by
  induction s with
  | nil => simp [pieces, hb]
  | cons a s ih =>
    cases ha : cut a with
    | true => simp [pieces, ha, ih]
    | false =>
      cases hs : pieces cut s with
      | nil => exact absurd hs (pieces_ne_nil cut s)
      | cons piece more =>
        rw [hs, List.cons_append] at ih
        rw [pieces_cons_of_not_cut ha hs, List.cons_append, pieces_cons_of_not_cut ha ih,
          List.cons_append]

theorem pieces_of_not_cut {t : Text} (h : ∀ b ∈ t, cut b = false) : pieces cut t = [t] := by
  induction t with
  | nil => rfl
  | cons b t ih =>
    obtain ⟨hb, ht⟩ := List.forall_mem_cons.mp h
    exact pieces_cons_of_not_cut hb (ih ht)

/-- The pieces that are not empty. -/
def words (cut : UInt8 → Bool) (t : Text) : List Text := (pieces cut t).filter (· ≠ [])

@[simp] theorem words_nil (cut : UInt8 → Bool) : words cut [] = [] := rfl

theorem words_append_cut {b : UInt8} (hb : cut b = true) (s t : Text) :
    words cut (s ++ b :: t) = words cut s ++ words cut t := by
  rw [words, pieces_append_cut hb, List.filter_append]
  rfl

theorem words_of_not_cut {t : Text} (h : ∀ b ∈ t, cut b = false) :
    words cut t = if t = [] then [] else [t] := by
  rw [words, pieces_of_not_cut h]
  by_cases ht : t = [] <;> simp [ht]

/-- Several cuts in a row are like one. -/
theorem words_append_cuts {separator : Text} (hne : separator ≠ [])
    (hcut : ∀ b ∈ separator, cut b = true) (s t : Text) :
    words cut (s ++ (separator ++ t)) = words cut s ++ words cut t := by
  induction separator generalizing s with
  | nil => exact absurd rfl hne
  | cons b separator ih =>
    obtain ⟨hb, hcut⟩ := List.forall_mem_cons.mp hcut
    rw [List.cons_append, words_append_cut hb]
    by_cases hmore : separator = []
    · rw [hmore, List.nil_append]
    · rw [show words cut (separator ++ t) = words cut t from ih hmore hcut []]

theorem join_cons_cons (separator part next : Text) (parts : List Text) :
    join separator (part :: next :: parts) =
      part ++ (separator ++ join separator (next :: parts)) := by
  simp [join, List.intercalate]

/-- Parts between cuts are read back. -/
theorem words_join {separator : Text} (hne : separator ≠ [])
    (hcut : ∀ b ∈ separator, cut b = true) {parts : List Text}
    (hparts : ∀ part ∈ parts, part ≠ [] ∧ ∀ b ∈ part, cut b = false) :
    words cut (join separator parts) = parts := by
  induction parts with
  | nil => rfl
  | cons part parts ih =>
    obtain ⟨⟨hpart, hfree⟩, hparts⟩ := List.forall_mem_cons.mp hparts
    have hword : words cut part = [part] := by rw [words_of_not_cut hfree, if_neg hpart]
    cases parts with
    | nil => simpa [join] using hword
    | cons next parts =>
      rw [join_cons_cons, words_append_cuts hne hcut, hword, ih hparts, List.singleton_append]

end Words

section Runs

variable {delimiters t : Text} {start stop i j : Nat}

/-- A delimiter stands at the place `i`. -/
def IsCut (delimiters t : Text) (i : Nat) : Prop := ∃ b ∈ delimiters, t[i]? = some b

/-- No delimiter stands at `start` or behind it, before `stop`. -/
structure IsFree (delimiters t : Text) (start stop : Nat) : Prop where
  le_length : stop ≤ t.length
  not_isCut : ∀ i, start ≤ i → i < stop → ¬IsCut delimiters t i

/-- A stretch that is not empty, is free of delimiters, and lies in no longer one that is. -/
structure IsRun (delimiters t : Text) (start stop : Nat) : Prop where
  lt : start < stop
  free : IsFree delimiters t start stop
  maximal : ∀ i j, i ≤ start → stop ≤ j → IsFree delimiters t i j → i = start ∧ j = stop

/-- Behind a delimiter, or at the beginning of the text. -/
def StartsFree (delimiters t : Text) (start : Nat) : Prop :=
  ∀ i, start = i + 1 → IsCut delimiters t i

/-- A free stretch that reaches such a place does not begin before it. -/
theorem IsFree.start_le (h : IsFree delimiters t i j) (hstart : StartsFree delimiters t start)
    (hj : start ≤ j) : start ≤ i := by
  by_contra hlt
  obtain ⟨before, rfl⟩ : ∃ before, start = before + 1 := ⟨start - 1, by omega⟩
  exact h.not_isCut before (by omega) (by omega) (hstart before rfl)

/-- A free stretch between two delimiters, or the ends of the text, is a run if it is not empty. -/
theorem IsFree.isRun (h : IsFree delimiters t start stop) (hlt : start < stop)
    (hstart : StartsFree delimiters t start)
    (hstop : stop = t.length ∨ IsCut delimiters t stop) : IsRun delimiters t start stop where
  lt := hlt
  free := h
  maximal i j hi hj hfree := by
    have hstart' : start ≤ j := Nat.le_trans (Nat.le_of_lt hlt) hj
    constructor
    · exact Nat.le_antisymm hi (hfree.start_le hstart hstart')
    · have hle := hfree.le_length
      obtain rfl | hcut := hstop
      · omega
      · by_contra hne
        exact hfree.not_isCut stop (by omega) (by omega) hcut

/-- No other run ends in such a stretch. -/
theorem IsRun.eq_of_isFree (h : IsRun delimiters t i j) (hfree : IsFree delimiters t start stop)
    (hstart : StartsFree delimiters t start) (hj : start ≤ j) (hj' : j ≤ stop) :
    i = start ∧ j = stop := by
  obtain ⟨hi, hj⟩ := h.maximal start stop (h.free.start_le hstart hj) hj' hfree
  exact ⟨hi.symm, hj.symm⟩

end Runs

namespace Splitting

variable {delimiters t part : Text} {s next : Splitting} {parts : List Text}
  {places : List (Nat × Nat)} {rounds : Nat}

section Rounds

/-- What one round does. It takes a part without a delimiter, and behind the part stands either the
end of the text or a delimiter. -/
structure Takes (delimiters t : Text) (s next : Splitting) (part : Text) : Prop where
  le_length : s.start ≤ t.length
  extract_eq : t.extract s.start (s.start + part.length) = part
  not_mem : ∀ b ∈ part, b ∉ delimiters
  start_eq : next.start = s.start + part.length + 1
  parts_eq : next.parts = s.parts ++ if part = [] then [] else [part]
  behind : (t.drop s.start = part ∧ t.length < next.start) ∨
    ∃ b ∈ delimiters, t.drop s.start = part ++ b :: t.drop next.start ∧ next.start ≤ t.length

/-- What stands before the first delimiter, and the rest. -/
theorem exists_eq_append_of_findIdx (delimiters rest : Text) :
    ∃ part after, rest = part ++ after ∧ rest.findIdx delimiters.contains = part.length ∧
      (∀ b ∈ part, b ∉ delimiters) ∧ ∀ b ∈ after.head?, b ∈ delimiters := by
  refine ⟨rest.takeWhile (!delimiters.contains ·), rest.dropWhile (!delimiters.contains ·),
    List.takeWhile_append_dropWhile.symm, ?_, ?_, ?_⟩
  · rw [List.takeWhile_eq_take_findIdx_not, List.length_take, Nat.min_eq_left List.findIdx_le_length]
    simp only [Bool.not_not]
  · intro b hb
    simpa using List.mem_takeWhile_imp hb
  · intro b hb
    have hhead := List.head?_dropWhile_not (!delimiters.contains ·) rest
    rw [Option.mem_def.mp hb] at hhead
    simpa using hhead

theorem exists_takes (h : s.round? delimiters t = some next) :
    ∃ part, Takes delimiters t s next part := by
  have hle := (lt_of_round? h).1
  obtain ⟨part, after, hrest, hfirst, hpart, hafter⟩ :=
    exists_eq_append_of_findIdx delimiters (t.drop s.start)
  have hlength : t.length - s.start = part.length + after.length := by
    rw [← List.length_drop, hrest, List.length_append]
  have hextract : t.extract s.start (s.start + part.length) = part := by
    rw [List.extract_eq_take_drop, hrest, Nat.add_sub_cancel_left, List.take_left]
  rw [round?_of_le hle, hfirst] at h
  obtain rfl := Option.some.inj h
  refine ⟨part, hle, hextract, hpart, rfl, ?_, ?_⟩
  · dsimp only
    rw [hextract]
    cases part <;> simp
  · cases after with
    | nil =>
      rw [List.length_nil] at hlength
      exact .inl ⟨by rw [hrest, List.append_nil], by dsimp only; omega⟩
    | cons b after =>
      have hbehind : t.drop (s.start + part.length + 1) = after := by
        rw [Nat.add_assoc, ← List.drop_drop, hrest, ← List.drop_drop, List.drop_left]
        rfl
      rw [List.length_cons] at hlength
      exact .inr ⟨b, hafter b rfl, by rw [hrest, hbehind], by dsimp only; omega⟩

/-- The rounds that are left: one for each delimiter, and one more unless the end is passed. -/
def roundsLeft (delimiters t : Text) (s : Splitting) : Nat :=
  if s.start ≤ t.length then (t.drop s.start).countP delimiters.contains + 1 else 0

theorem Takes.roundsLeft_eq (h : Takes delimiters t s next part) :
    s.roundsLeft delimiters t = next.roundsLeft delimiters t + 1 := by
  have hpart : part.countP delimiters.contains = 0 := by
    rw [List.countP_eq_zero]
    intro b hb
    simpa using h.not_mem b hb
  unfold roundsLeft
  rw [if_pos h.le_length]
  obtain ⟨hdrop, hlt⟩ | ⟨b, hb, hdrop, hle⟩ := h.behind
  · rw [if_neg (Nat.not_le_of_lt hlt), hdrop, hpart]
  · rw [if_pos hle, hdrop, List.countP_append, List.countP_cons_of_pos (by simpa using hb), hpart,
      Nat.zero_add]

/-- A round takes a word from the text, or nothing. -/
theorem Takes.words_eq (h : Takes delimiters t s next part) :
    s.parts ++ words delimiters.contains (t.drop s.start) =
      next.parts ++ words delimiters.contains (t.drop next.start) := by
  have hpart : words delimiters.contains part = if part = [] then [] else [part] :=
    words_of_not_cut fun b hb => by simpa using h.not_mem b hb
  rw [h.parts_eq, List.append_assoc, ← hpart]
  obtain ⟨hdrop, hlt⟩ | ⟨b, hb, hdrop, -⟩ := h.behind
  · rw [hdrop, List.drop_of_length_le (Nat.le_of_lt hlt), words_nil, List.append_nil]
  · rw [hdrop, words_append_cut (by simpa using hb)]

/-- There are so many rounds until there is none left, and these parts have been taken by then. -/
inductive Ends (delimiters t : Text) : Nat → Splitting → List Text → Prop
  | finished {s : Splitting} : s.round? delimiters t = none → Ends delimiters t 0 s s.parts
  | round {rounds : Nat} {s next : Splitting} {parts : List Text} :
    s.round? delimiters t = some next → Ends delimiters t rounds next parts →
      Ends delimiters t (rounds + 1) s parts

theorem ends_finish (delimiters t : Text) (s : Splitting) :
    Ends delimiters t (s.roundsLeft delimiters t) s (s.finish delimiters t) := by
  induction s using finish.induct delimiters t with
  | case1 s next hround ih =>
    obtain ⟨part, htakes⟩ := exists_takes hround
    rw [finish_of_round? hround, htakes.roundsLeft_eq]
    exact .round hround ih
  | case2 s hround =>
    have hleft : s.roundsLeft delimiters t = 0 :=
      if_neg (Nat.not_le_of_lt (round?_eq_none_iff.mp hround))
    rw [finish_of_no_round hround, hleft]
    exact .finished hround

theorem Ends.parts_eq (h : Ends delimiters t rounds s parts) :
    parts = s.parts ++ words delimiters.contains (t.drop s.start) := by
  induction h with
  | finished hround =>
    have hlt := round?_eq_none_iff.mp hround
    rw [List.drop_of_length_le (Nat.le_of_lt hlt), words_nil, List.append_nil]
  | round hround _ ih =>
    obtain ⟨part, htakes⟩ := exists_takes hround
    rw [ih, htakes.words_eq]

end Rounds

section Places

theorem Takes.getElem?_eq (h : Takes delimiters t s next part) {n : Nat} (hn : n < part.length) :
    t[s.start + n]? = part[n]? := by
  rw [← List.getElem?_drop]
  obtain ⟨hdrop, -⟩ | ⟨b, -, hdrop, -⟩ := h.behind
  · rw [hdrop]
  · rw [hdrop, List.getElem?_append_left hn]

theorem Takes.stop (h : Takes delimiters t s next part) :
    s.start + part.length = t.length ∨
      (s.start + part.length < t.length ∧ IsCut delimiters t (s.start + part.length)) := by
  have hle := h.le_length
  obtain ⟨hdrop, -⟩ | ⟨b, hb, hdrop, hnext⟩ := h.behind
  · rw [← hdrop, List.length_drop]
    exact .inl (Nat.add_sub_cancel' hle)
  · rw [h.start_eq] at hnext
    refine .inr ⟨hnext, b, hb, ?_⟩
    rw [← List.getElem?_drop, hdrop, List.getElem?_append_right (Nat.le_refl _), Nat.sub_self]
    rfl

theorem Takes.isFree (h : Takes delimiters t s next part) :
    IsFree delimiters t s.start (s.start + part.length) where
  le_length := by
    obtain heq | ⟨hlt, -⟩ := h.stop
    · exact Nat.le_of_eq heq
    · exact Nat.le_of_lt hlt
  not_isCut i hi hi' hcut := by
    obtain ⟨b, hb, hget⟩ := hcut
    obtain ⟨n, rfl⟩ := Nat.exists_eq_add_of_le hi
    rw [h.getElem?_eq (Nat.lt_of_add_lt_add_left hi')] at hget
    exact h.not_mem b (List.mem_of_getElem? hget) hb

theorem Takes.startsFree (h : Takes delimiters t s next part) (hle : next.start ≤ t.length) :
    StartsFree delimiters t next.start := by
  intro i hi
  rw [h.start_eq] at hi hle
  obtain heq | ⟨-, hcut⟩ := h.stop
  · omega
  · rwa [← Nat.succ.inj hi]

/-- Of the runs that end before the place where the next round starts, only the part that is taken
ends behind the place where this one starts. -/
theorem Takes.isRun_iff (h : Takes delimiters t s next part)
    (hstart : StartsFree delimiters t s.start) (i j : Nat) :
    IsRun delimiters t i j ∧ j < next.start ↔
      (IsRun delimiters t i j ∧ j < s.start) ∨
        (part ≠ [] ∧ i = s.start ∧ j = s.start + part.length) := by
  have hpart : part ≠ [] ↔ 0 < part.length := List.length_pos_iff.symm
  rw [h.start_eq, hpart]
  constructor
  · rintro ⟨hrun, hj⟩
    by_cases hlt : j < s.start
    · exact .inl ⟨hrun, hlt⟩
    · obtain ⟨rfl, rfl⟩ := hrun.eq_of_isFree h.isFree hstart (by omega) (by omega)
      have hlt := hrun.lt
      exact .inr ⟨by omega, rfl, rfl⟩
  · rintro (⟨hrun, hj⟩ | ⟨hpos, rfl, rfl⟩)
    · exact ⟨hrun, by omega⟩
    · exact ⟨h.isFree.isRun (by omega) hstart (h.stop.imp_right And.right), by omega⟩

/-- The parts stand at these places, which are those of the runs before the next round. -/
structure Found (delimiters t : Text) (s : Splitting) (places : List (Nat × Nat)) : Prop where
  parts_eq : s.parts = places.map fun p => t.extract p.1 p.2
  ordered : places.Pairwise fun p q => p.2 < q.1
  mem_iff : ∀ start stop,
    (start, stop) ∈ places ↔ IsRun delimiters t start stop ∧ stop < s.start
  startsFree : s.start ≤ t.length → StartsFree delimiters t s.start

theorem Found.start (delimiters t : Text) : Found delimiters t {} [] where
  parts_eq := rfl
  ordered := .nil
  mem_iff := by simp
  startsFree _ i hi := by cases hi

theorem Found.of_takes (h : Found delimiters t s places) (htakes : Takes delimiters t s next part) :
    ∃ places, Found delimiters t next places := by
  have hruns := htakes.isRun_iff (h.startsFree htakes.le_length)
  by_cases hpart : part = []
  · refine ⟨places, ?_, h.ordered, fun start stop => ?_, htakes.startsFree⟩
    · rw [htakes.parts_eq, if_pos hpart, List.append_nil, h.parts_eq]
    · rw [h.mem_iff, hruns]
      simp [hpart]
  · refine ⟨places ++ [(s.start, s.start + part.length)], ?_, ?_, fun start stop => ?_,
      htakes.startsFree⟩
    · rw [htakes.parts_eq, if_neg hpart, h.parts_eq, List.map_append, List.map_singleton,
        htakes.extract_eq]
    · refine List.pairwise_append.mpr ⟨h.ordered, List.pairwise_singleton _ _, ?_⟩
      intro p hp q hq
      obtain rfl := List.mem_singleton.mp hq
      exact ((h.mem_iff p.1 p.2).mp hp).2
    · rw [List.mem_append, h.mem_iff, hruns]
      simp [hpart]

theorem Ends.exists_places (h : Ends delimiters t rounds s parts)
    (hfound : Found delimiters t s places) :
    ∃ places : List (Nat × Nat), (places.Pairwise fun p q => p.2 < q.1) ∧
      (∀ start stop, (start, stop) ∈ places ↔ IsRun delimiters t start stop) ∧
      parts = places.map fun p => t.extract p.1 p.2 := by
  induction h generalizing places with
  | finished hround =>
    have hlt := round?_eq_none_iff.mp hround
    refine ⟨places, hfound.ordered, fun start stop => ?_, hfound.parts_eq⟩
    rw [hfound.mem_iff, and_iff_left_iff_imp]
    exact fun hrun => Nat.lt_of_le_of_lt hrun.free.le_length hlt
  | round hround _ ih =>
    obtain ⟨part, htakes⟩ := exists_takes hround
    obtain ⟨places, hnext⟩ := hfound.of_takes htakes
    exact ih hnext

end Places

end Splitting

theorem splitAny_eq_words (delimiters t : Text) :
    splitAny delimiters t = words delimiters.contains t :=
  (Splitting.ends_finish delimiters t {}).parts_eq

/-- Parts that are joined by delimiters are read back. -/
theorem splitAny_join {delimiters separator : Text} {parts : List Text} (hne : separator ≠ [])
    (hseparator : ∀ b ∈ separator, b ∈ delimiters)
    (hparts : ∀ part ∈ parts, part ≠ [] ∧ ∀ b ∈ part, b ∉ delimiters) :
    splitAny delimiters (join separator parts) = parts := by
  rw [splitAny_eq_words]
  refine words_join hne (fun b hb => by simpa using hseparator b hb) fun part hpart => ?_
  exact ⟨(hparts part hpart).1, fun b hb => by simpa using (hparts part hpart).2 b hb⟩

/-- The rounds come to an end, one for each delimiter and one more, and what they have taken then
are the longest stretches without a delimiter, in their order. Parts that are joined by delimiters
are read back, if none is empty or holds a delimiter. -/
theorem splitAny_takes_runs (delimiters t : Text) :
    Splitting.Ends delimiters t (t.countP delimiters.contains + 1) {} (splitAny delimiters t) ∧
    (∃ places : List (Nat × Nat), (places.Pairwise fun p q => p.2 < q.1) ∧
      (∀ start stop, (start, stop) ∈ places ↔ IsRun delimiters t start stop) ∧
      splitAny delimiters t = places.map fun p => t.extract p.1 p.2) ∧
    ∀ (separator : Text) (parts : List Text), separator ≠ [] →
      (∀ b ∈ separator, b ∈ delimiters) →
      (∀ part ∈ parts, part ≠ [] ∧ ∀ b ∈ part, b ∉ delimiters) →
      splitAny delimiters (join separator parts) = parts := by
  have hends := Splitting.ends_finish delimiters t {}
  have hrounds : Splitting.roundsLeft delimiters t {} = t.countP delimiters.contains + 1 :=
    if_pos (Nat.zero_le _)
  refine ⟨?_, hends.exists_places (.start delimiters t), fun separator parts => splitAny_join⟩
  rwa [hrounds] at hends

/-- Two words with two delimiters between them take three rounds. -/
theorem splitAny_takes_runs_of_twoWords :
    let delimiters := utf8 " \r\n"
    let separator := utf8 "\r\n"
    let parts := [utf8 "Linux", utf8 "x86_64"]
    (separator ≠ [] ∧ (∀ b ∈ separator, b ∈ delimiters) ∧
      ∀ part ∈ parts, part ≠ [] ∧ ∀ b ∈ part, b ∉ delimiters) ∧
    splitAny delimiters (join separator parts) = parts ∧
    Splitting.Ends delimiters (join separator parts) 3 {} parts := by
  intro delimiters separator parts
  have hne : separator ≠ [] := by decide
  have hseparator : ∀ b ∈ separator, b ∈ delimiters := by decide +kernel
  have hparts : ∀ part ∈ parts, part ≠ [] ∧ ∀ b ∈ part, b ∉ delimiters := by decide +kernel
  obtain ⟨hends, -, hjoin⟩ := splitAny_takes_runs delimiters (join separator parts)
  have hsplit := hjoin separator parts hne hseparator hparts
  have hcount : (join separator parts).countP delimiters.contains + 1 = 3 := by decide
  rw [hsplit, hcount] at hends
  exact ⟨⟨hne, hseparator, hparts⟩, hsplit, hends⟩

/-- Delimiters at the ends and in a row leave nothing between them. -/
example : splitAny (utf8 ", ") (utf8 ", ,cli,, host,") = [utf8 "cli", utf8 "host"] := by
  decide +kernel

end NativeBuild.Text
