import Mathlib.Logic.Relation
import NativeBuild.Proofs.Text
import NativeBuild.Proofs.Path.Location

/-!
# The spellings of a path

A path can be spelled in other letters, with more slashes, over a dot, over a directory and back,
or from the root. Each of these leads to the same names, up to the case of their letters. The
comparison that a build makes of its directories looks at these names alone, so it takes all
spellings of a directory for one.
-/
namespace NativeBuild

namespace Path

open FileSystem (pathOf)
open Text (toLower lowerByte)

section Letters

theorem lowerByte_eq_slash_iff (b : UInt8) : lowerByte b = slash ↔ b = slash :=
  Text.lowerByte_eq_iff (by decide) (by decide)

theorem lowerByte_eq_backslash_iff (b : UInt8) : lowerByte b = byte '\\' ↔ b = byte '\\' :=
  Text.lowerByte_eq_iff (by decide) (by decide)

theorem toLower_eq_dot_iff (name : Text) : toLower name = dot ↔ name = dot :=
  Text.toLower_eq_iff (by decide +kernel)

theorem toLower_eq_dotDot_iff (name : Text) : toLower name = dotDot ↔ name = dotDot :=
  Text.toLower_eq_iff (by decide +kernel)

theorem isAbsolute_toLower (p : Path) : isAbsolute (toLower p) = isAbsolute p := by
  cases p with
  | nil => rfl
  | cons b p =>
    rw [Bool.eq_iff_iff]
    simpa [isAbsolute, toLower] using lowerByte_eq_slash_iff b

theorem pieces_toLower (p : Path) :
    Text.pieces (· == slash) (toLower p) = (Text.pieces (· == slash) p).map toLower :=
  Text.pieces_toLower (fun b => by
    rw [Bool.eq_iff_iff, beq_iff_eq, beq_iff_eq, lowerByte_eq_slash_iff]) p

theorem components_toLower (p : Path) : components (toLower p) = (components p).map toLower := by
  unfold components
  rw [pieces_toLower, List.filter_map]
  congr 2
  funext piece
  simp [toLower]

theorem goTo_toLower (dir : Location) (names : List Text) :
    goTo (dir.map toLower) (names.map toLower) = (goTo dir names).map toLower := by
  induction names generalizing dir with
  | nil => rfl
  | cons name names ih =>
    rw [List.map_cons, goTo, goTo]
    simp only [toLower_eq_dot_iff, toLower_eq_dotDot_iff]
    split
    · exact ih dir
    split
    · rw [← List.map_dropLast, ih]
    · rw [← ih, List.map_append, List.map_singleton]

theorem joined_toLower (names : List Text) :
    toLower (Text.join [slash] names) = Text.join [slash] (names.map toLower) := by
  induction names with
  | nil => rfl
  | cons name names ih =>
    cases names with
    | nil => simp [Text.join]
    | cons next names =>
      rw [List.map_cons] at ih
      rw [List.map_cons, List.map_cons, join_slash_cons, join_slash_cons, ← ih, Text.toLower_append]
      rfl

theorem pathOf_toLower (l : Location) : toLower (pathOf l) = pathOf (l.map toLower) := by
  unfold pathOf
  rw [← joined_toLower]
  rfl

theorem stripSlashes_toLower (p : Path) : stripSlashes (toLower p) = toLower (stripSlashes p) := by
  cases p with
  | nil => rfl
  | cons b p =>
    have hsame : ((fun c => c == slash || c == byte '\\') ∘ lowerByte)
        = fun c => c == slash || c == byte '\\' := by
      funext c
      rw [Bool.eq_iff_iff]
      simp [lowerByte_eq_slash_iff, lowerByte_eq_backslash_iff]
    change stripSlashes (lowerByte b :: p.map lowerByte) = lowerByte b :: List.map lowerByte _
    rw [stripSlashes, ← List.map_reverse, List.dropWhile_map, hsame, List.map_reverse]

end Letters

section Compared

variable {here a b p : Path}

theorem stripSlashes_append {slashes : Text} (h : ∀ b ∈ slashes, b = slash) (hp : p ≠ []) :
    stripSlashes (p ++ slashes) = stripSlashes p := by
  obtain ⟨b, rest, rfl⟩ := List.exists_cons_of_ne_nil hp
  rw [List.cons_append, stripSlashes, stripSlashes, List.reverse_append,
    List.dropWhile_append_of_pos]
  intro c hc
  simp [h c (List.mem_reverse.mp hc)]

theorem stripSlashes_ne_nil (hp : p ≠ []) : stripSlashes p ≠ [] := by
  obtain ⟨b, rest, rfl⟩ := List.exists_cons_of_ne_nil hp
  simp [stripSlashes]

theorem joined_ne_nil {names : List Text} (h : ∀ name ∈ names, name ≠ []) (hne : names ≠ []) :
    Text.join [slash] names ≠ [] := by
  obtain ⟨name, rest, rfl⟩ := List.exists_cons_of_ne_nil hne
  cases rest with
  | nil => simpa [Text.join] using h
  | cons next rest =>
    rw [join_slash_cons]
    simp

theorem Normalizing.push_names_ne_nil {s : Normalizing} (h : ∀ name ∈ s.names, name ≠ [])
    (piece : Text) : ∀ name ∈ (s.push piece).names, name ≠ [] := by
  have hdotDot : dotDot ≠ [] := by decide
  unfold Normalizing.push
  split
  · exact h
  next hnot =>
  split
  · split
    · split
      · exact h
      · simpa using hdotDot
    · next last before hnames =>
      rw [hnames] at h
      split
      · exact List.forall_mem_cons.mpr ⟨hdotDot, hnames ▸ h⟩
      · exact fun name hname => h name (.tail _ hname)
  · exact List.forall_mem_cons.mpr ⟨fun hnil => hnot (.inl hnil), h⟩

/-- A path is not normalised away. -/
theorem normal_ne_nil (hp : p ≠ []) : normal p ≠ [] := by
  unfold normal
  split
  · exact hp
  have hnames := List.foldlRecOn (motive := fun s => ∀ name ∈ s.names, name ≠ [])
    (Text.pieces (· == slash) p) Normalizing.push
    (b := { absolute := isAbsolute p }) (List.forall_mem_nil _)
    fun s hs piece _ => Normalizing.push_names_ne_nil hs piece
  generalize (Text.pieces (· == slash) p).foldl Normalizing.push { absolute := isAbsolute p } = s
    at hnames
  unfold Normalizing.text
  cases hlast : s.names with
  | nil =>
    dsimp only
    split
    · simp
    · decide
  | cons last before =>
    have hjoined : Text.join [slash] (last :: before).reverse ≠ [] :=
      joined_ne_nil (fun name hname => hnames name (hlast ▸ List.mem_reverse.mp hname)) (by simp)
    dsimp only
    exact List.append_ne_nil_of_left_ne_nil (List.append_ne_nil_of_right_ne_nil _ hjoined) _

/-- What a comparison looks at. -/
def compared (here p : Path) : Text :=
  toLower (stripSlashes (normal ((absolute? here p).getD p)))

theorem absolute?_getD_ne_nil (here : Path) (hp : p ≠ []) : (absolute? here p).getD p ≠ [] := by
  unfold absolute?
  rw [if_neg hp, Option.getD_some]
  split
  · exact hp
  · next hrelative =>
    unfold join
    rw [if_neg hrelative]
    split <;> simp [hp]

theorem toLower_ne_nil (hp : p ≠ []) : toLower p ≠ [] := by simpa [toLower] using hp

theorem compared_ne_nil (here : Path) (hp : p ≠ []) : compared here p ≠ [] :=
  toLower_ne_nil (stripSlashes_ne_nil (normal_ne_nil (absolute?_getD_ne_nil here hp)))

/-- Two paths are the same if what is compared of them is; the empty path is like no other. -/
theorem sameIgnoringCase_iff (here a b : Path) :
    sameIgnoringCase here a b = true ↔ compared here a = compared here b := by
  have hempty (p : Path) (hp : p ≠ []) : toLower (stripSlashes (normal p)) ≠ compared here [] ∧
      compared here p ≠ compared here [] :=
    ⟨toLower_ne_nil (stripSlashes_ne_nil (normal_ne_nil hp)), compared_ne_nil here hp⟩
  unfold sameIgnoringCase
  rw [Text.equalsIgnoringCase_iff]
  by_cases ha : a = []
  · have hnone : absolute? here a = none := if_pos ha
    rw [hnone, ha]
    by_cases hb : b = []
    · rw [hb]
      exact iff_of_true rfl rfl
    · exact iff_of_false (hempty b hb).1.symm (hempty b hb).2.symm
  have hsome : absolute? here a = some ((absolute? here a).getD a) := by simp [absolute?, ha]
  by_cases hb : b = []
  · have hnone : absolute? here b = none := if_pos hb
    rw [hsome, hnone, hb]
    exact iff_of_false (hempty a ha).1 (hempty a ha).2
  · have hsome' : absolute? here b = some ((absolute? here b).getD b) := by simp [absolute?, hb]
    rw [hsome, hsome']
    rfl

/-- The comparison of paths is an equivalence. -/
theorem sameIgnoringCase_equivalence (here : Path) :
    Equivalence fun a b => sameIgnoringCase here a b = true where
  refl a := (sameIgnoringCase_iff here a a).mpr rfl
  symm h := (sameIgnoringCase_iff here _ _).mpr ((sameIgnoringCase_iff here _ _).mp h).symm
  trans h h' := (sameIgnoringCase_iff here _ _).mpr
    (((sameIgnoringCase_iff here _ _).mp h).trans ((sameIgnoringCase_iff here _ _).mp h'))

/-- The names that an absolute directory leads to. -/
def rooted (here : Path) : Location := goTo [] (components here)

theorem goTo_absolute (hhere : isAbsolute here = true) (hp : p ≠ []) :
    isAbsolute ((absolute? here p).getD p) = true ∧
      goTo [] (components ((absolute? here p).getD p)) = location (rooted here) p := by
  unfold absolute? location start
  rw [if_neg hp, Option.getD_some]
  split
  · next h => exact ⟨h, rfl⟩
  · next h =>
    have hrelative : isAbsolute p = false := by simpa using h
    rw [isAbsolute_join hrelative, components_join hrelative, goTo_append]
    exact ⟨hhere, rfl⟩

/-- What is compared of a path are the names that it leads to, in small letters. -/
theorem compared_eq (hhere : isAbsolute here = true) (hp : p ≠ []) :
    compared here p = stripSlashes (pathOf ((location (rooted here) p).map toLower)) := by
  obtain ⟨habsolute, hgo⟩ := goTo_absolute hhere hp
  obtain ⟨slashes, hslashes, hnormal⟩ := exists_normal_eq habsolute
  unfold compared
  have hne (l : Location) : pathOf l ≠ [] := List.cons_ne_nil _ _
  rw [hnormal, stripSlashes_append hslashes (hne _), hgo, ← stripSlashes_toLower, pathOf_toLower]

theorem same_of_location (hhere : isAbsolute here = true) (ha : a ≠ []) (hb : b ≠ [])
    (h : (location (rooted here) a).map toLower = (location (rooted here) b).map toLower) :
    sameIgnoringCase here a b = true := by
  rw [sameIgnoringCase_iff, compared_eq hhere ha, compared_eq hhere hb, h]

end Compared

/-- Components that lead back to where they start: a dot, or an ordinary name and two dots. -/
inductive Detour : Text → Prop
  | stay : Detour dot
  | back {name : Text} (h : IsOrdinary name) : Detour (name ++ slash :: dotDot)

/-- A path is spelled in another way. -/
inductive Respelled (here : Path) : Path → Path → Prop
  | letters {p q : Path} (hp : p ≠ []) (h : toLower p = toLower q) : Respelled here p q
  | doubled (p q : Path) : Respelled here (p ++ slash :: q) (p ++ slash :: slash :: q)
  | closed {p : Path} (hp : p ≠ []) : Respelled here p (p ++ [slash])
  | within (p : Path) {d : Text} (h : Detour d) (q : Path) :
    Respelled here (p ++ slash :: q) (p ++ slash :: (d ++ slash :: q))
  | before {p : Path} (hp : p ≠ []) (hrelative : isAbsolute p = false) {d : Text} (h : Detour d) :
    Respelled here p (d ++ slash :: p)
  | behind {p : Path} (hp : p ≠ []) {d : Text} (h : Detour d) : Respelled here p (join p d)
  | absolute {p q : Path} (h : absolute? here p = some q) : Respelled here p q

section Respelled

variable {here p q : Path} {d : Text}

theorem isAbsolute_append (hp : p ≠ []) (q : Path) : isAbsolute (p ++ q) = isAbsolute p := by
  obtain ⟨b, p, rfl⟩ := List.exists_cons_of_ne_nil hp
  rfl

theorem Detour.isAbsolute (h : Detour d) : isAbsolute d = false := by
  cases h with
  | stay => decide
  | @back name h =>
    rw [isAbsolute_append h.1]
    exact isAbsolute_of_slash_not_mem h.2.1

theorem Detour.ne_nil (h : Detour d) : d ≠ [] := by
  cases h with
  | stay => decide
  | back h => simp

theorem Detour.goTo (h : Detour d) (dir : Location) : goTo dir (components d) = dir := by
  cases h with
  | stay => rfl
  | @back name h =>
    have hdotDot : components dotDot = [dotDot] := by decide
    obtain ⟨hne, hslash, hordinary⟩ := h
    have hname : Path.goTo dir [name] = dir ++ [name] :=
      (goTo_of_names (by simpa using hordinary)).1
    have hup : Path.goTo (dir ++ [name]) [dotDot] = (dir ++ [name]).dropLast := by rfl
    rw [components_append_slash, components_of_slash_not_mem hslash, if_neg hne, hdotDot,
      goTo_append, hname, hup, List.dropLast_concat]

theorem start_append_slash (dir : Location) (p q r : Path) :
    start dir (p ++ slash :: q) = start dir (p ++ slash :: r) := by
  cases p <;> rfl

theorem location_append_slash (dir : Location) (p q : Path) :
    location dir (p ++ slash :: q) = goTo (location dir (p ++ [slash])) (components q) := by
  unfold location
  rw [start_append_slash dir p q [], components_append_slash, components_append_slash, goTo_append,
    components_nil, List.append_nil]

theorem location_append_singleton (dir : Location) (hp : p ≠ []) :
    location dir (p ++ [slash]) = location dir p := by
  obtain ⟨b, p, rfl⟩ := List.exists_cons_of_ne_nil hp
  unfold location
  rw [components_append_slash, components_nil, List.append_nil]
  rfl

/-- Another spelling leads to the same names, up to the case of their letters. -/
theorem Respelled.location (hhere : isAbsolute here = true) (h : Respelled here p q) :
    p ≠ [] ∧ q ≠ [] ∧
      (location (rooted here) p).map toLower = (location (rooted here) q).map toLower := by
  cases h with
  | letters hp h =>
    refine ⟨hp, fun hq => hp ?_, ?_⟩
    · rw [hq] at h
      simpa [toLower] using h
    · have habsolute : isAbsolute p = isAbsolute q := by
        rw [← isAbsolute_toLower p, h, isAbsolute_toLower]
      unfold Path.location start
      rw [← goTo_toLower, ← goTo_toLower, ← components_toLower, ← components_toLower, h, habsolute]
  | doubled p q =>
    refine ⟨by simp, by simp, ?_⟩
    rw [location_append_slash, location_append_slash _ p (slash :: q), ← List.nil_append (slash :: q),
      components_append_slash]
    rfl
  | closed hp => exact ⟨hp, by simp, by rw [location_append_singleton _ hp]⟩
  | @within p d h q =>
    refine ⟨by simp, by simp, ?_⟩
    rw [location_append_slash _ p q, location_append_slash _ p (d ++ slash :: q),
      components_append_slash, goTo_append, h.goTo]
  | @before p hp hrelative d h =>
    refine ⟨hp, by simp, ?_⟩
    have hstart : isAbsolute (d ++ slash :: p) = false := by
      rw [isAbsolute_append h.ne_nil, h.isAbsolute]
    unfold Path.location start
    rw [hstart, hrelative, components_append_slash, goTo_append, h.goTo]
  | behind hp h =>
    refine ⟨hp, ?_, ?_⟩
    · unfold join
      rw [if_neg (by simp [h.isAbsolute])]
      split <;> simp [hp]
    · rw [location_join_of_relative h.isAbsolute, h.goTo]
  | absolute h =>
    have hp : p ≠ [] := by
      rintro rfl
      cases h
    have hne := absolute?_getD_ne_nil here hp
    obtain ⟨habsolute, hgo⟩ := goTo_absolute hhere hp
    rw [h, Option.getD_some] at hne habsolute hgo
    refine ⟨hp, hne, ?_⟩
    rw [← hgo, Path.location, start, if_pos habsolute]

/-- All spellings of a directory are the same to a comparison. -/
theorem same_of_respelled (hhere : isAbsolute here = true)
    (h : Relation.EqvGen (Respelled here) p q) : sameIgnoringCase here p q = true := by
  refine (sameIgnoringCase_equivalence here).eqvGen_iff.mp (h.mono fun a b hab => ?_)
  obtain ⟨ha, hb, hlocation⟩ := hab.location hhere
  exact same_of_location hhere ha hb hlocation

end Respelled

end Path

end NativeBuild
