import NativeBuild.Proofs.Shell.Words
import NativeBuild.Shell.Evaluation

/-!
# Expanding the words of arguments

The words of arguments expand to what the arguments mean, one field for each, whatever files and
variables the machine has: no part of them is replaced or split, and what could match the names of
files stands between quotes.
-/
namespace NativeBuild.Shell

/-- The bytes that a part leaves in its field. -/
def Part.field : Part → Field
  | .byte quoted b => [(quoted, b)]
  | _ => []

/-- The part stands for itself. -/
def Part.IsPlain (p : Part) : Prop := p = .emptyQuotes ∨ ∃ quoted b, p = .byte quoted b

theorem expand_plain {w : Word} (h : ∀ p ∈ w, p.IsPlain) {fuel : Nat} (hfuel : w.length ≤ fuel)
    (x : Expansion) : expand fuel x w = pure (w.foldl (fun x p => x.append p.field) x) := by
  induction w generalizing fuel x with
  | nil =>
    cases fuel with
    | zero => rw [expand]; rfl
    | succ fuel => rw [expand]; rfl
  | cons p w ih =>
    obtain ⟨fuel, rfl⟩ : ∃ n, fuel = n + 1 := ⟨fuel - 1, by simp at hfuel; omega⟩
    have hlength : w.length ≤ fuel := by simpa using hfuel
    have hrest := ih (fun q hq => h q (by simp [hq])) hlength
    obtain rfl | ⟨quoted, b, rfl⟩ := h p (by simp)
    · rw [expand, hrest]
      rfl
    · rw [expand, hrest]
      rfl

/-- The parts of a word go into one field. -/
theorem foldl_append {w : Word} (hw : w ≠ []) (x : Expansion) :
    w.foldl (fun x p => x.append p.field) x =
      { x with current := some (x.current.getD [] ++ w.flatMap Part.field) } := by
  induction w generalizing x with
  | nil => exact absurd rfl hw
  | cons p w ih =>
    by_cases hrest : w = []
    · subst hrest
      simp [Expansion.append]
    · rw [List.foldl_cons, ih hrest]
      simp [Expansion.append]

/-- The field of an argument: inert bytes without quotes, then quoted ones. -/
def Argument.field (a : Argument) : Field :=
  a.head.map (false, ·) ++ (a.value.getD []).map (true, ·)

theorem Argument.isPlain_word (a : Argument) : ∀ p ∈ a.word, p.IsPlain := by
  obtain ⟨head, value, inert, nonzero⟩ := a
  have hbytes : ∀ quoted (t : Text), ∀ p ∈ t.map (Part.byte quoted), p.IsPlain := by
    intro quoted t p hp
    obtain ⟨b, -, rfl⟩ := List.mem_map.mp hp
    exact .inr ⟨quoted, b, rfl⟩
  intro p hp
  obtain hp | hp := List.mem_append.mp hp
  · exact hbytes false head p hp
  · cases value with
    | none => simp at hp
    | some v =>
      simp only [Option.map_some, Option.getD_some, quotedWord] at hp
      split at hp
      · exact .inl (by simpa using hp)
      · exact hbytes true v p hp

theorem Argument.flatMap_word (a : Argument) : a.word.flatMap Part.field = a.field := by
  obtain ⟨head, value, inert, nonzero⟩ := a
  have hbytes : ∀ quoted (t : Text),
      (t.map (Part.byte quoted)).flatMap Part.field = t.map (quoted, ·) := by
    intro quoted t
    induction t with
    | nil => rfl
    | cons b t ih => rw [List.map_cons, List.flatMap_cons, ih]; rfl
  unfold word field
  rw [List.flatMap_append, hbytes]
  cases value with
  | none => rfl
  | some v =>
    simp only [Option.map_some, Option.getD_some, quotedWord]
    split
    · next h => rw [h]; rfl
    · rw [hbytes]

theorem Argument.text_field (a : Argument) : a.field.text = a.meant := by
  simp [field, Field.text, meant, Function.comp_def]

/-- What could match file names stands between quotes. -/
theorem Argument.isPattern_field (a : Argument) : a.field.isPattern = false := by
  have hinert : ∀ c ∈ utf8 "*?[", isInert c = false := by decide +kernel
  have hhead : ∀ b ∈ a.head, b ∉ utf8 "*?[" := fun b hb hmem =>
    ne_of_isInert (a.inert b hb) (hinert b hmem) rfl
  simp only [field, Field.isPattern, List.any_append, List.any_map, Bool.or_eq_false_iff,
    List.any_eq_false]
  refine ⟨fun b hb => ?_, fun b hb => ?_⟩
  · simpa using hhead b hb
  · simp

theorem Argument.word_ne_nil {a : Argument} (h : a.written ≠ []) : a.word ≠ [] := by
  obtain ⟨head, value, inert, nonzero⟩ := a
  unfold word
  unfold written at h
  cases value with
  | none => simpa using h
  | some v =>
    simp only [Option.map_some, Option.getD_some, quotedWord]
    split
    · simp
    · next hv => simp [hv]

/-- Expanding the words of arguments gives what they mean, whatever the machine is. -/
theorem expandAll_word {as : List Argument} (h : ∀ a ∈ as, a.written ≠ []) {fuel : Nat}
    (hfuel : ∀ a ∈ as, as.length + a.word.length ≤ fuel) :
    expandAll fuel (as.map (·.word)) = pure (as.map (·.meant)) := by
  induction as generalizing fuel with
  | nil =>
    cases fuel with
    | zero => rw [List.map_nil, expandAll]; rfl
    | succ fuel => rw [List.map_nil, expandAll]; rfl
  | cons a as ih =>
    have hbound := hfuel a (by simp)
    rw [List.length_cons] at hbound
    obtain ⟨fuel, rfl⟩ : ∃ n, fuel = n + 1 := ⟨fuel - 1, by omega⟩
    have hrest : expandAll fuel (as.map (·.word)) = pure (as.map (·.meant)) := by
      refine ih (fun c hc => h c (by simp [hc])) fun c hc => ?_
      have hle := hfuel c (by simp [hc])
      rw [List.length_cons] at hle
      omega
    have hword : expand fuel {} a.word = pure { current := some a.field } := by
      rw [expand_plain a.isPlain_word (by omega), foldl_append (a.word_ne_nil (h a (by simp))),
        a.flatMap_word]
      rfl
    have hfields : ∀ fs : FileSystem,
        (Expansion.fields { current := some a.field }).flatMap (expandPattern fs) = [a.meant] := by
      intro fs
      simp [Expansion.fields, Expansion.close, expandPattern, a.isPattern_field, a.text_field]
    rw [List.map_cons, expandAll, hword, hrest]
    simp only [pure_bind, hfields]
    rfl

end NativeBuild.Shell
