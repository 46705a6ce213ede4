import NativeBuild.Text

/-!
# Sorted dictionaries

A dictionary lists its entries by increasing key. Insertion keeps the order and replaces the
value of a key that is present, so the last value written wins.
-/
namespace NativeBuild

/-- Entries by increasing key. -/
abbrev Dictionary (α : Type) := List (Text × α)

namespace Dictionary

variable {α : Type}

def insert (key : Text) (value : α) : Dictionary α → Dictionary α
  | [] => [(key, value)]
  | (k, v) :: rest =>
    if key = k then (key, value) :: rest
    else if key < k then (key, value) :: (k, v) :: rest
    else (k, v) :: insert key value rest

def get? (key : Text) : Dictionary α → Option α
  | [] => none
  | (k, v) :: rest => if key = k then some v else get? key rest

@[simp] theorem get?_insert_self (key : Text) (value : α) (d : Dictionary α) :
    get? key (insert key value d) = some value := by
  induction d with
  | nil => simp [insert, get?]
  | cons e rest ih =>
    obtain ⟨k, v⟩ := e
    simp only [insert]
    split
    · simp [get?]
    · split <;> simp [get?, *]

theorem get?_insert_of_ne {key other : Text} (h : other ≠ key) (value : α) (d : Dictionary α) :
    get? other (insert key value d) = get? other d := by
  induction d with
  | nil => simp [insert, get?, h]
  | cons e rest ih =>
    obtain ⟨k, v⟩ := e
    simp only [insert]
    split
    · next hk => subst hk; simp [get?, h]
    · split <;> simp [get?, h, ih]

def ofList (entries : List (Text × α)) : Dictionary α :=
  entries.foldl (fun d e => d.insert e.1 e.2) []

/-- Texts in increasing order, each of them once. -/
def sorted (texts : List Text) : List Text := (ofList (texts.map (·, ()))).map (·.1)

end Dictionary

end NativeBuild
