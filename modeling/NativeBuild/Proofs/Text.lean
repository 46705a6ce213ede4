import NativeBuild.Proofs.Splitting

/-!
# Lower case and separators

Lower case leaves a text alone that is in it already, and every byte that is no letter. So a text is
cut at the same places in either case, if it is not cut at letters, and texts that are equal up to
the case of their letters are cut into pieces that are.

Two parts with a separator between them are determined by the whole, unless the separator is in a
part as well: then a piece can change sides.
-/
namespace NativeBuild.Text

section Letters

/-- A byte that is no letter stays, and nothing else becomes that byte. -/
theorem lowerByte_eq_iff {b c : UInt8} (hupper : isUpper c = false) (hlower : isLower c = false) :
    lowerByte b = c ↔ b = c := by
  simp only [isUpper, isLower, Bool.and_eq_false_iff, decide_eq_false_iff_not,
    UInt8.le_iff_toNat_le, UInt8.reduceToNat] at hupper hlower
  unfold lowerByte isUpper
  split
  · next h =>
    simp only [Bool.and_eq_true, decide_eq_true_eq, UInt8.le_iff_toNat_le, UInt8.reduceToNat] at h
    simp only [← UInt8.toNat_inj, UInt8.toNat_add, UInt8.reduceToNat]
    omega
  · rfl

theorem isUpper_lowerByte (b : UInt8) : isUpper (lowerByte b) = false := by
  unfold lowerByte
  split
  · next h =>
    simp only [isUpper, Bool.and_eq_true, Bool.and_eq_false_iff, decide_eq_true_eq,
      decide_eq_false_iff_not, UInt8.le_iff_toNat_le, UInt8.toNat_add, UInt8.reduceToNat] at h ⊢
    omega
  · next h => exact Bool.eq_false_iff.mpr h

@[simp] theorem lowerByte_lowerByte (b : UInt8) : lowerByte (lowerByte b) = lowerByte b := by
  rw [lowerByte, isUpper_lowerByte, if_neg Bool.false_ne_true]

@[simp] theorem toLower_toLower (t : Text) : toLower (toLower t) = toLower t := by
  simp [toLower]

/-- A text without letters stays, and nothing else becomes that text. -/
theorem toLower_eq_iff {s t : Text} (h : ∀ b ∈ t, isUpper b = false ∧ isLower b = false) :
    toLower s = t ↔ s = t := by
  induction s generalizing t with
  | nil => rfl
  | cons b s ih =>
    cases t with
    | nil => simp [toLower]
    | cons c t =>
      obtain ⟨⟨hupper, hlower⟩, ht⟩ := List.forall_mem_cons.mp h
      change lowerByte b :: toLower s = c :: t ↔ _
      rw [List.cons.injEq, List.cons.injEq, lowerByte_eq_iff hupper hlower, ih ht]

theorem pieces_toLower {cut : UInt8 → Bool} (hcut : ∀ b, cut (lowerByte b) = cut b) (t : Text) :
    pieces cut (toLower t) = (pieces cut t).map toLower := by
  induction t with
  | nil => rfl
  | cons b t ih =>
    change pieces cut (lowerByte b :: toLower t) = _
    rw [pieces, pieces, hcut, ih]
    split
    · rfl
    · cases pieces cut t <;> rfl

/-- The words of a text in lower case are its words in lower case. -/
theorem splitAny_toLower {delimiters : Text}
    (h : ∀ d ∈ delimiters, isUpper d = false ∧ isLower d = false) (t : Text) :
    splitAny delimiters (toLower t) = (splitAny delimiters t).map toLower := by
  have hcut (b : UInt8) : delimiters.contains (lowerByte b) = delimiters.contains b := by
    rw [Bool.eq_iff_iff, List.contains_iff_mem, List.contains_iff_mem]
    constructor
    · intro hmem
      rwa [(lowerByte_eq_iff (h _ hmem).1 (h _ hmem).2).mp rfl]
    · intro hmem
      rwa [(lowerByte_eq_iff (h _ hmem).1 (h _ hmem).2).mpr rfl]
  rw [splitAny_eq_words, splitAny_eq_words, words, words, pieces_toLower hcut, List.filter_map]
  congr 2
  funext piece
  simp [toLower]

end Letters

section Separators

variable {b : UInt8} {s s' t t' : Text}

/-- Two texts of two parts each are equal if their parts are, and also if a piece that ends at a
separator moves from one part to the other. -/
theorem append_cons_eq_iff :
    s ++ b :: t = s' ++ b :: t' ↔
      (s = s' ∧ t = t') ∨ (∃ piece, s = s' ++ b :: piece ∧ t' = piece ++ b :: t) ∨
        ∃ piece, s' = s ++ b :: piece ∧ t = piece ++ b :: t' := by
  constructor
  · intro h
    obtain ⟨middle, hs, ht⟩ | ⟨middle, hs, ht⟩ := List.append_eq_append_iff.mp h
    · cases middle with
      | nil => exact .inl ⟨by simpa using hs.symm, (List.cons.inj ht).2⟩
      | cons c piece =>
        obtain ⟨rfl, hrest⟩ := List.cons.inj ht
        exact .inr (.inr ⟨piece, hs, hrest⟩)
    · cases middle with
      | nil => exact .inl ⟨by simpa using hs, (List.cons.inj ht).2.symm⟩
      | cons c piece =>
        obtain ⟨rfl, hrest⟩ := List.cons.inj ht
        exact .inr (.inl ⟨piece, hs, hrest⟩)
  · rintro (⟨rfl, rfl⟩ | ⟨piece, rfl, rfl⟩ | ⟨piece, rfl, rfl⟩)
    · rfl
    · simp
    · simp

/-- A part that ends at the first separator is determined by the whole. -/
theorem append_cons_inj (hs : b ∉ s) (hs' : b ∉ s') (h : s ++ b :: t = s' ++ b :: t') :
    s = s' ∧ t = t' := by
  obtain h | ⟨piece, rfl, -⟩ | ⟨piece, rfl, -⟩ := append_cons_eq_iff.mp h
  · exact h
  · exact absurd (by simp) hs
  · exact absurd (by simp) hs'

end Separators

end NativeBuild.Text
