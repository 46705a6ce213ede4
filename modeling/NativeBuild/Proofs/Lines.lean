import NativeBuild.Lines

/-!
# Lines of a text that is cut anywhere

A text is its complete lines and an open rest. Appending to the text appends to its rest, and
whatever lines that completes come after the lines that were complete before. So the complete
lines and the rest can be computed piece by piece, wherever the pieces are cut.
-/
namespace NativeBuild

namespace Text

theorem pieces_ne_nil (cut : UInt8 → Bool) (t : Text) : pieces cut t ≠ [] := by
  induction t with
  | nil => simp [pieces]
  | cons b t ih =>
    simp only [pieces]
    split
    · simp
    · split <;> simp

/-- A byte that is not cut at belongs to the first piece. -/
theorem pieces_cons_of_not_cut {cut : UInt8 → Bool} {b : UInt8} {t piece : Text} {more : List Text}
    (h : cut b = false) (hp : pieces cut t = piece :: more) :
    pieces cut (b :: t) = (b :: piece) :: more := by
  simp [pieces, h, hp]

/-- The bytes before a cut are the first piece. -/
theorem pieces_append_cons {cut : UInt8 → Bool} {b : UInt8} (hb : cut b = true) {line : Text}
    (hline : ∀ a ∈ line, cut a = false) (t : Text) :
    pieces cut (line ++ b :: t) = line :: pieces cut t := by
  induction line with
  | nil => simp [pieces, hb]
  | cons a line ih =>
    obtain ⟨ha, hline⟩ := List.forall_mem_cons.mp hline
    exact pieces_cons_of_not_cut ha (ih hline)

end Text

namespace Lines

theorem pieces_eq (t : Text) : Text.pieces (· == lineFeed) t = closed t ++ [rest t] := by
  have hne := Text.pieces_ne_nil (· == lineFeed) t
  rw [closed, rest, List.getLast?_eq_some_getLast hne, Option.getD_some,
    List.dropLast_concat_getLast]

theorem of_pieces_eq {t last : Text} {lines : List Text}
    (h : Text.pieces (· == lineFeed) t = lines ++ [last]) : closed t = lines ∧ rest t = last := by
  simp [closed, rest, h]

/-- A line feed in front of a text completes an empty line. -/
theorem closed_lineFeed (t : Text) :
    closed (lineFeed :: t) = [] :: closed t ∧ rest (lineFeed :: t) = rest t := by
  apply of_pieces_eq
  simp [Text.pieces, pieces_eq t]

/-- A byte in front of an open text belongs to its rest. -/
theorem closed_cons_of_open {b : UInt8} (hb : b ≠ lineFeed) {t : Text} (h : closed t = []) :
    closed (b :: t) = [] ∧ rest (b :: t) = b :: rest t := by
  have hp := pieces_eq t
  rw [h, List.nil_append] at hp
  apply of_pieces_eq
  exact Text.pieces_cons_of_not_cut (by simpa using hb) hp

/-- A byte in front of a text with complete lines belongs to the first of them. -/
theorem closed_cons_of_closed {b : UInt8} (hb : b ≠ lineFeed) {t line : Text} {lines : List Text}
    (h : closed t = line :: lines) :
    closed (b :: t) = (b :: line) :: lines ∧ rest (b :: t) = rest t := by
  have hp := pieces_eq t
  rw [h, List.cons_append] at hp
  apply of_pieces_eq
  exact Text.pieces_cons_of_not_cut (by simpa using hb) hp

/-- What is appended to a text is appended to its rest. -/
theorem closed_rest_append (s t : Text) :
    closed (s ++ t) = closed s ++ closed (rest s ++ t) ∧ rest (s ++ t) = rest (rest s ++ t) := by
  induction s with
  | nil => simp
  | cons b s ih =>
    obtain ⟨ihClosed, ihRest⟩ := ih
    rw [List.cons_append]
    by_cases hb : b = lineFeed
    · subst hb
      simp [closed_lineFeed, ihClosed, ← ihRest]
    cases hs : closed s with
    | nil =>
      obtain ⟨hClosed, hRest⟩ := closed_cons_of_open hb hs
      rw [hs, List.nil_append] at ihClosed
      rw [hClosed, hRest, List.nil_append, List.cons_append]
      cases ht : closed (s ++ t) with
      | nil =>
        have hs' := closed_cons_of_open hb ht
        have ht' := closed_cons_of_open hb (ihClosed ▸ ht)
        simp [hs', ht', ihRest]
      | cons line lines =>
        have hs' := closed_cons_of_closed hb ht
        have ht' := closed_cons_of_closed hb (ihClosed ▸ ht)
        simp [hs', ht', ihRest]
    | cons line lines =>
      obtain ⟨hClosed, hRest⟩ := closed_cons_of_closed hb hs
      rw [hs, List.cons_append] at ihClosed
      have hst := closed_cons_of_closed hb ihClosed
      simp [hst, hClosed, hRest, ihRest]

theorem complete_append (s t : Text) :
    complete (s ++ t) = complete s ++ complete (rest s ++ t) := by
  simp [complete, (closed_rest_append s t).1]

theorem rest_append (s t : Text) : rest (s ++ t) = rest (rest s ++ t) := (closed_rest_append s t).2

end Lines

end NativeBuild
