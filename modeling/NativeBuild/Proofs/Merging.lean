import Mathlib.Data.List.Induction
import Mathlib.Data.List.Nodup
import NativeBuild.BuildOptions

/-!
# Merged argument lists

Arguments are merged into a list one at a time, and one that is there already is left out. What was
there stays in front as it is, repetitions included. Behind it stand the new arguments, each of
them once, in the order in which they occur first. So it makes no difference whether arguments are
merged in together or in parts, and merging the same arguments a second time adds nothing.
-/
namespace NativeBuild

variable {arguments extra added : List Text} {x : Text}

/-- What `extra` adds to `arguments`: the texts that are new, in the order in which they occur
first. -/
structure BringsIn (arguments extra added : List Text) : Prop where
  mem_iff : ∀ x, x ∈ added ↔ x ∈ extra ∧ x ∉ arguments
  ordered : added.Pairwise fun x y => extra.idxOf x < extra.idxOf y

namespace BringsIn

theorem nil (arguments : List Text) : BringsIn arguments [] [] :=
  ⟨by simp, .nil⟩

theorem nodup (h : BringsIn arguments extra added) : added.Nodup :=
  h.ordered.imp fun hlt heq => Nat.ne_of_lt hlt (congrArg extra.idxOf heq)

/-- Texts do not change places when something is put behind them. -/
theorem ordered_append (h : BringsIn arguments extra added) (more : List Text) :
    added.Pairwise fun x y => (extra ++ more).idxOf x < (extra ++ more).idxOf y := by
  refine h.ordered.imp_of_mem fun {x y} hx hy hlt => ?_
  rw [List.idxOf_append_of_mem ((h.mem_iff x).mp hx).1,
    List.idxOf_append_of_mem ((h.mem_iff y).mp hy).1]
  exact hlt

/-- A text that is there already adds nothing. -/
theorem concat_old (h : BringsIn arguments extra added) (hx : x ∈ arguments ∨ x ∈ extra) :
    BringsIn arguments (extra ++ [x]) added where
  mem_iff y := by
    rw [h.mem_iff, List.mem_append, List.mem_singleton]
    constructor
    · rintro ⟨hextra, hnew⟩
      exact ⟨.inl hextra, hnew⟩
    · rintro ⟨hextra | rfl, hnew⟩
      · exact ⟨hextra, hnew⟩
      · exact ⟨hx.resolve_left hnew, hnew⟩
  ordered := h.ordered_append [x]

/-- A new text is added behind the others. -/
theorem concat_new (h : BringsIn arguments extra added) (hx : x ∉ arguments) (hextra : x ∉ extra) :
    BringsIn arguments (extra ++ [x]) (added ++ [x]) where
  mem_iff y := by
    rw [List.mem_append, List.mem_append, h.mem_iff, List.mem_singleton]
    constructor
    · rintro (⟨hmem, hnew⟩ | rfl)
      · exact ⟨.inl hmem, hnew⟩
      · exact ⟨.inr rfl, hx⟩
    · rintro ⟨hmem | rfl, hnew⟩
      · exact .inl ⟨hmem, hnew⟩
      · exact .inr rfl
  ordered := by
    refine List.pairwise_append.mpr ⟨h.ordered_append [x], List.pairwise_singleton _ _, ?_⟩
    intro y hy z hz
    obtain rfl := List.mem_singleton.mp hz
    have hy := ((h.mem_iff y).mp hy).1
    rw [List.idxOf_append_of_mem hy, List.idxOf_append_of_notMem hextra]
    exact Nat.lt_add_right _ (List.idxOf_lt_length_of_mem hy)

/-- What is added is determined by the two lists. -/
theorem unique {added' : List Text} (h : BringsIn arguments extra added)
    (h' : BringsIn arguments extra added') : added = added' := by
  have hperm : added.Perm added' := by
    rw [List.perm_ext_iff_of_nodup h.nodup h'.nodup]
    intro x
    rw [h.mem_iff, h'.mem_iff]
  exact hperm.eq_of_pairwise (fun x y _ _ hxy hyx => absurd hyx (Nat.lt_asymm hxy))
    h.ordered h'.ordered

end BringsIn

/-- One more text is put behind the merged list, unless it is in there. -/
theorem appendUnique_concat (arguments extra : List Text) (x : Text) :
    appendUnique arguments (extra ++ [x]) =
      if x ∈ appendUnique arguments extra then appendUnique arguments extra
      else appendUnique arguments extra ++ [x] := by
  have hstep : appendUnique arguments (extra ++ [x]) =
      if (appendUnique arguments extra).contains x then appendUnique arguments extra
      else appendUnique arguments extra ++ [x] := List.foldl_append
  simpa only [List.contains_iff_mem] using hstep

theorem exists_bringsIn (arguments extra : List Text) :
    ∃ added, appendUnique arguments extra = arguments ++ added ∧
      BringsIn arguments extra added := by
  induction extra using List.reverseRecOn with
  | nil => exact ⟨[], by simp, .nil _⟩
  | append_singleton extra x ih =>
    obtain ⟨added, hmerged, hnews⟩ := ih
    rw [appendUnique_concat]
    split
    · next hx => exact ⟨added, hmerged, hnews.concat_old ((mem_appendUnique ..).mp hx)⟩
    · next hx =>
      obtain ⟨hnew, hextra⟩ := not_or.mp (mt (mem_appendUnique ..).mpr hx)
      exact ⟨added ++ [x], by rw [hmerged, List.append_assoc], hnews.concat_new hnew hextra⟩

/-- Merging gives the list with what is added behind it. -/
theorem BringsIn.appendUnique_eq (h : BringsIn arguments extra added) :
    appendUnique arguments extra = arguments ++ added := by
  obtain ⟨added', hmerged, hnews⟩ := exists_bringsIn arguments extra
  rw [hmerged, hnews.unique h]

theorem prefix_appendUnique (arguments extra : List Text) :
    arguments <+: appendUnique arguments extra := by
  obtain ⟨added, hmerged, -⟩ := exists_bringsIn arguments extra
  exact ⟨added, hmerged.symm⟩

theorem count_appendUnique (x : Text) (arguments extra : List Text) :
    (appendUnique arguments extra).count x =
      max (arguments.count x) (if x ∈ extra then 1 else 0) := by
  obtain ⟨added, hmerged, hnews⟩ := exists_bringsIn arguments extra
  rw [hmerged, List.count_append, hnews.nodup.count]
  by_cases hx : x ∈ arguments
  · have hpos := List.count_pos_iff.mpr hx
    rw [if_neg fun hmem => ((hnews.mem_iff x).mp hmem).2 hx]
    split <;> omega
  · have hmem : x ∈ added ↔ x ∈ extra := by simp [hnews.mem_iff, hx]
    simp [hmem, List.count_eq_zero.mpr hx]

/-- What is new and different is appended as it stands. -/
theorem appendUnique_eq_append (hnodup : extra.Nodup) (hnew : ∀ x ∈ extra, x ∉ arguments) :
    appendUnique arguments extra = arguments ++ extra := by
  have hnews : BringsIn arguments extra extra := by
    refine ⟨fun x => ⟨fun hx => ⟨hx, hnew x hx⟩, And.left⟩, ?_⟩
    rw [List.pairwise_iff_getElem]
    intro i j hi hj hij
    rwa [hnodup.idxOf_getElem, hnodup.idxOf_getElem]
  exact hnews.appendUnique_eq

/-- What is there already is merged in without a change. -/
theorem appendUnique_eq_self (h : ∀ x ∈ extra, x ∈ arguments) :
    appendUnique arguments extra = arguments := by
  have hnews : BringsIn arguments extra [] :=
    ⟨fun x => ⟨fun hx => absurd hx List.not_mem_nil, fun hx => absurd (h x hx.1) hx.2⟩, .nil⟩
  rw [hnews.appendUnique_eq, List.append_nil]

/-- Arguments that are merged in stand behind what was there, which stays as it is: each one that
is new stands there once, in the order of their first occurrences. Merging them in again changes
nothing, and arguments can be merged in together or in parts. -/
theorem appendUnique_appends_new_once (arguments extra more : List Text) :
    (∃ added, appendUnique arguments extra = arguments ++ added ∧ added.Nodup ∧
      (∀ x, x ∈ added ↔ x ∈ extra ∧ x ∉ arguments) ∧
      added.Pairwise fun x y => extra.idxOf x < extra.idxOf y) ∧
    appendUnique (appendUnique arguments extra) extra = appendUnique arguments extra ∧
    appendUnique (appendUnique arguments extra) more = appendUnique arguments (extra ++ more) := by
  refine ⟨?_, appendUnique_eq_self fun x hx => (mem_appendUnique ..).mpr (.inr hx),
    List.foldl_append.symm⟩
  obtain ⟨added, hmerged, hnews⟩ := exists_bringsIn arguments extra
  exact ⟨added, hmerged, hnews.nodup, hnews.mem_iff, hnews.ordered⟩

/-- Repetitions stay in front, and of those behind only the first is taken. -/
example : appendUnique [[1], [2], [1]] [[3], [2], [4], [3]] = [[1], [2], [1], [3], [4]] := by
  decide

end NativeBuild
