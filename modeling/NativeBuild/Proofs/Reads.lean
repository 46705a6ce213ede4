import NativeBuild.Text

/-!
# Reads

A reader takes a part of a text and gives a value and a cursor. What is said about a read is its
value and the text that it leaves; where the cursor counts lines and columns does not matter.
-/
namespace NativeBuild

/-- A run of bytes that satisfy `p` ends here. -/
def RunEnds (p : UInt8 → Bool) (rest : Text) : Prop := ∀ b ∈ rest.head?, p b = false

namespace RunEnds

variable {p : UInt8 → Bool} {run rest : Text}

theorem takeWhile (hrest : RunEnds p rest) (h : ∀ b ∈ run, p b = true) :
    (run ++ rest).takeWhile p = run := by
  have hstop : rest.takeWhile p = [] := by
    cases rest with
    | nil => rfl
    | cons b rest => simp [hrest b rfl]
  rw [List.takeWhile_append_of_pos h, hstop, List.append_nil]

theorem dropWhile (hrest : RunEnds p rest) (h : ∀ b ∈ run, p b = true) :
    (run ++ rest).dropWhile p = rest := by
  have hstop : rest.dropWhile p = rest := by
    cases rest with
    | nil => rfl
    | cons b rest => simp [hrest b rfl]
  rw [List.dropWhile_append_of_pos h, hstop]

end RunEnds

/-- A read gives `x` and stops before `rest`; `view` is the text at a cursor. -/
def Reads {α γ ε : Type} (view : γ → Text) (r : Except ε (α × γ)) (x : α) (rest : Text) : Prop :=
  ∃ d, r = .ok (x, d) ∧ view d = rest

namespace Reads

variable {α β γ ε : Type} {view : γ → Text} {r : Except ε (α × γ)}
  {k : α × γ → Except ε (β × γ)} {x : α} {y : β} {rest rest' : Text}

theorem bind (h : Reads view r x rest)
    (hk : ∀ d, view d = rest → Reads view (k (x, d)) y rest') : Reads view (r >>= k) y rest' := by
  obtain ⟨d, rfl, hd⟩ := h
  exact hk d hd

theorem of_bind (h : Reads view (r >>= k) y rest) :
    ∃ x d, Reads view r x (view d) ∧ Reads view (k (x, d)) y rest := by
  cases r with
  | error e =>
    obtain ⟨d, hd, -⟩ := h
    cases hd
  | ok read => exact ⟨read.1, read.2, ⟨read.2, rfl, rfl⟩, h⟩

theorem ok_iff (view : γ → Text) (x y : α) (d : γ) (rest : Text) :
    Reads view (.ok (x, d) : Except ε (α × γ)) y rest ↔ x = y ∧ view d = rest := by
  constructor
  · rintro ⟨d, hd, rfl⟩
    obtain ⟨rfl, rfl⟩ := Prod.mk.inj (Except.ok.inj hd)
    exact ⟨rfl, rfl⟩
  · rintro ⟨rfl, hrest⟩
    exact ⟨d, rfl, hrest⟩

theorem not_error (view : γ → Text) (e : ε) (x : α) (rest : Text) :
    ¬Reads view (.error e) x rest := by
  rintro ⟨d, hd, -⟩
  cases hd

end Reads

end NativeBuild
