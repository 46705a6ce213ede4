import NativeBuild.Files.Resolve
import NativeBuild.Proofs.Splitting

/-!
# The components of a path

A path is its components and the slashes around them. Joining a name adds a component, and the
parent loses one. Components lead from a directory to a location, one at a time: a dot stays, two
dots go up, and every other component goes down.
-/
namespace NativeBuild

namespace Text

variable {cut : UInt8 → Bool}

/-- A piece holds bytes of the text that are not cut at. -/
theorem of_mem_pieces {t piece : Text} (h : piece ∈ pieces cut t) :
    ∀ b ∈ piece, b ∈ t ∧ cut b = false := by
  induction t generalizing piece with
  | nil =>
    obtain rfl : piece = [] := by simpa [pieces] using h
    simp
  | cons a t ih =>
    cases ha : cut a with
    | true =>
      simp only [pieces, ha, if_true, List.mem_cons] at h
      obtain rfl | h := h
      · simp
      · exact fun b hb => ⟨.tail _ (ih h b hb).1, (ih h b hb).2⟩
    | false =>
      cases ht : pieces cut t with
      | nil => exact absurd ht (pieces_ne_nil cut t)
      | cons first more =>
        rw [pieces_cons_of_not_cut ha ht] at h
        obtain rfl | h := List.mem_cons.mp h
        · intro b hb
          obtain rfl | hb := List.mem_cons.mp hb
          · exact ⟨.head _, ha⟩
          · have hfirst := ih (show first ∈ pieces cut t by simp [ht]) b hb
            exact ⟨.tail _ hfirst.1, hfirst.2⟩
        · intro b hb
          have hmore := ih (show piece ∈ pieces cut t by simp [ht, h]) b hb
          exact ⟨.tail _ hmore.1, hmore.2⟩

end Text

namespace Path

/-- A name that an entry of a directory can have. -/
structure IsName (name : Text) : Prop where
  ne_nil : name ≠ []
  slash : Path.slash ∉ name
  zero : 0 ∉ name
  ne_dot : name ≠ dot
  ne_dotDot : name ≠ dotDot
  length_le : name.length ≤ FileSystem.maxName

instance (name : Text) : Decidable (IsName name) :=
  decidable_of_iff (name ≠ [] ∧ slash ∉ name ∧ 0 ∉ name ∧ name ≠ dot ∧ name ≠ dotDot ∧
      name.length ≤ FileSystem.maxName)
    ⟨fun ⟨h, h', h'', hd, hdd, hl⟩ => ⟨h, h', h'', hd, hdd, hl⟩,
      fun h => ⟨h.ne_nil, h.slash, h.zero, h.ne_dot, h.ne_dotDot, h.length_le⟩⟩

section GoTo

variable {dir at_ : Location} {names : List Text}

/-- Where some components lead from a directory. -/
def goTo (dir : Location) : List Text → Location
  | [] => dir
  | name :: rest =>
    if name = dot then goTo dir rest
    else if name = dotDot then goTo dir.dropLast rest
    else goTo (dir ++ [name]) rest

/-- The locations that some components leave again by two dots. -/
def leaves (dir : Location) : List Text → List Location
  | [] => []
  | name :: rest =>
    if name = dot then leaves dir rest
    else if name = dotDot then dir :: leaves dir.dropLast rest
    else leaves (dir ++ [name]) rest

@[simp] theorem goTo_dot (dir : Location) (rest : List Text) :
    goTo dir (dot :: rest) = goTo dir rest := by
  rw [goTo, if_pos rfl]

@[simp] theorem goTo_dotDot (dir : Location) (rest : List Text) :
    goTo dir (dotDot :: rest) = goTo dir.dropLast rest := by
  rw [goTo, if_neg (by decide), if_pos rfl]

@[simp] theorem leaves_dot (dir : Location) (rest : List Text) :
    leaves dir (dot :: rest) = leaves dir rest := by
  rw [leaves, if_pos rfl]

@[simp] theorem leaves_dotDot (dir : Location) (rest : List Text) :
    leaves dir (dotDot :: rest) = dir :: leaves dir.dropLast rest := by
  rw [leaves, if_neg (by decide), if_pos rfl]

theorem goTo_down {name : Text} (hdot : name ≠ dot) (hdotDot : name ≠ dotDot) (dir : Location)
    (rest : List Text) : goTo dir (name :: rest) = goTo (dir ++ [name]) rest := by
  rw [goTo, if_neg hdot, if_neg hdotDot]

theorem leaves_down {name : Text} (hdot : name ≠ dot) (hdotDot : name ≠ dotDot) (dir : Location)
    (rest : List Text) : leaves dir (name :: rest) = leaves (dir ++ [name]) rest := by
  rw [leaves, if_neg hdot, if_neg hdotDot]

/-- Components are gone through one by one: each stays in the directory, or leads up or down. -/
@[elab_as_elim]
theorem goTo_induction {motive : Location → List Text → Prop} (here : ∀ dir, motive dir [])
    (stay : ∀ dir rest, motive dir rest → motive dir (dot :: rest))
    (up : ∀ dir rest, motive dir.dropLast rest → motive dir (dotDot :: rest))
    (down : ∀ dir name rest, name ≠ dot → name ≠ dotDot → motive (dir ++ [name]) rest →
      motive dir (name :: rest)) (dir : Location) (names : List Text) : motive dir names := by
  induction names generalizing dir with
  | nil => exact here dir
  | cons name rest ih =>
    by_cases hdot : name = dot
    · exact hdot ▸ stay dir rest (ih dir)
    by_cases hdotDot : name = dotDot
    · exact hdotDot ▸ up dir rest (ih dir.dropLast)
    · exact down dir name rest hdot hdotDot (ih (dir ++ [name]))

theorem goTo_append (dir : Location) (names more : List Text) :
    goTo dir (names ++ more) = goTo (goTo dir names) more := by
  induction dir, names using goTo_induction with
  | here => rfl
  | stay dir rest ih => rw [List.cons_append, goTo_dot, goTo_dot, ih]
  | up dir rest ih => rw [List.cons_append, goTo_dotDot, goTo_dotDot, ih]
  | down dir name rest hdot hdotDot ih =>
    rw [List.cons_append, goTo_down hdot hdotDot, goTo_down hdot hdotDot, ih]

theorem leaves_append (dir : Location) (names more : List Text) :
    leaves dir (names ++ more) = leaves dir names ++ leaves (goTo dir names) more := by
  induction dir, names using goTo_induction with
  | here => rfl
  | stay dir rest ih => rw [List.cons_append, leaves_dot, leaves_dot, goTo_dot, ih]
  | up dir rest ih =>
    rw [List.cons_append, leaves_dotDot, leaves_dotDot, goTo_dotDot, ih, List.cons_append]
  | down dir name rest hdot hdotDot ih =>
    rw [List.cons_append, leaves_down hdot hdotDot, leaves_down hdot hdotDot,
      goTo_down hdot hdotDot, ih]

/-- Ordinary names lead straight down. -/
theorem goTo_of_names (h : ∀ name ∈ names, name ≠ dot ∧ name ≠ dotDot) :
    goTo dir names = dir ++ names ∧ leaves dir names = [] := by
  induction names generalizing dir with
  | nil => simp [goTo, leaves]
  | cons name names ih =>
    obtain ⟨⟨hdot, hdotDot⟩, hnames⟩ := List.forall_mem_cons.mp h
    obtain ⟨hgo, hleaves⟩ := @ih (dir ++ [name]) hnames
    rw [goTo_down hdot hdotDot, leaves_down hdot hdotDot, hgo, hleaves]
    simp

theorem goTo_name {name : Text} (h : IsName name) : goTo dir [name] = dir ++ [name] :=
  (goTo_of_names (by simpa using ⟨h.ne_dot, h.ne_dotDot⟩)).1

theorem leaves_name {name : Text} (h : IsName name) : leaves dir [name] = [] :=
  (goTo_of_names (by simpa using ⟨h.ne_dot, h.ne_dotDot⟩)).2

theorem prefix_dropLast (h : at_ <+: dir) (hne : at_ ≠ dir) : at_ <+: dir.dropLast := by
  obtain ⟨rest, rfl⟩ := h
  have hrest : rest ≠ [] := by
    rintro rfl
    simp at hne
  rw [List.dropLast_append_of_ne_nil hrest]
  exact List.prefix_append _ _

theorem mem_of_mem_goTo {name : Text} (h : name ∈ goTo dir names) : name ∈ dir ∨ name ∈ names := by
  induction dir, names using goTo_induction with
  | here => exact .inl h
  | stay dir rest ih => exact (ih (goTo_dot dir rest ▸ h)).imp_right (.tail _)
  | up dir rest ih =>
    rw [goTo_dotDot] at h
    exact (ih h).imp (fun hup => List.dropLast_subset dir hup) (.tail _)
  | down dir next rest hdot hdotDot ih =>
    rw [goTo_down hdot hdotDot] at h
    obtain hdown | hrest := ih h
    · obtain hdir | hnext := List.mem_append.mp hdown
      · exact .inl hdir
      · exact .inr (List.mem_singleton.mp hnext ▸ .head _)
    · exact .inr (.tail _ hrest)

/-- Whatever is on the way so far stays on the way, unless it is left again. -/
theorem prefix_goTo (h : at_ <+: dir) (names : List Text) :
    at_ <+: goTo dir names ∨ at_ ∈ leaves dir names := by
  induction dir, names using goTo_induction with
  | here => exact .inl h
  | stay dir rest ih =>
    rw [goTo_dot, leaves_dot]
    exact ih h
  | up dir rest ih =>
    rw [goTo_dotDot, leaves_dotDot]
    by_cases heq : at_ = dir
    · exact .inr (heq ▸ .head _)
    · exact (ih (prefix_dropLast h heq)).imp_right (.tail _)
  | down dir name rest hdot hdotDot ih =>
    rw [goTo_down hdot hdotDot, leaves_down hdot hdotDot]
    exact ih (h.trans (List.prefix_append _ _))

/-- The way to a location leads over the locations above it, and over those that are left. -/
theorem goTo_take (dir : Location) {before : List Text} (h : before <+: names) :
    goTo dir before <+: goTo dir names ∨ goTo dir before ∈ leaves dir names := by
  obtain ⟨rest, rfl⟩ := h
  rw [goTo_append, leaves_append]
  exact (prefix_goTo List.prefix_rfl rest).imp_right (List.mem_append_right _)

end GoTo

section Components

variable {p child name : Text}

@[simp] theorem components_nil : components [] = [] := rfl

theorem components_append_slash (p q : Text) :
    components (p ++ slash :: q) = components p ++ components q :=
  Text.words_append_cut (by simp) p q

theorem components_of_slash_not_mem (h : slash ∉ name) :
    components name = if name = [] then [] else [name] :=
  Text.words_of_not_cut fun b hb => by simpa using fun heq : b = slash => h (heq ▸ hb)

theorem components_name (h : IsName name) : components name = [name] := by
  rw [components_of_slash_not_mem h.slash, if_neg h.ne_nil]

/-- What a component is made of. -/
theorem of_mem_components (h : name ∈ components p) :
    name ≠ [] ∧ slash ∉ name ∧ ∀ b ∈ name, b ∈ p := by
  obtain ⟨hpiece, hne⟩ := List.mem_filter.mp h
  have hbytes := Text.of_mem_pieces hpiece
  refine ⟨by simpa using hne, fun hslash => ?_, fun b hb => (hbytes b hb).1⟩
  have hcut := (hbytes _ hslash).2
  simp at hcut

theorem eq_append_slash_of_not_hasFileName (h : hasFileName p = false) (hp : p ≠ []) :
    ∃ q, p = q ++ [slash] := by
  have hlast : p.getLast? = some slash := by simpa [hasFileName, hp] using h
  obtain ⟨q, rfl⟩ := List.getLast?_eq_some_iff.mp hlast
  exact ⟨q, rfl⟩

theorem components_join (hchild : isAbsolute child = false) (p : Path) :
    components (join p child) = components p ++ components child := by
  unfold join
  rw [if_neg (by simp [hchild])]
  cases hname : hasFileName p with
  | true => rw [if_pos rfl, List.append_assoc, List.singleton_append, components_append_slash]
  | false =>
    rw [if_neg (by simp)]
    by_cases hp : p = []
    · subst hp
      simp
    · obtain ⟨q, rfl⟩ := eq_append_slash_of_not_hasFileName hname hp
      rw [List.append_assoc, List.singleton_append, components_append_slash,
        components_append_slash, components_nil, List.append_nil]

theorem isAbsolute_join (hchild : isAbsolute child = false) (p : Path) :
    isAbsolute (join p child) = isAbsolute p := by
  unfold join
  rw [if_neg (by simp [hchild])]
  cases p with
  | nil => exact hchild
  | cons b p => cases hasFileName (b :: p) <;> simp [isAbsolute]

theorem zero_not_mem_join (hp : 0 ∉ p) (hchild : 0 ∉ child) : 0 ∉ join p child := by
  unfold join
  split
  · exact hchild
  · have hslash : (0 : UInt8) ≠ slash := by decide
    split <;> simp [hp, hchild, hslash]

theorem isAbsolute_of_slash_not_mem (h : slash ∉ name) : isAbsolute name = false := by
  cases name with
  | nil => rfl
  | cons b name =>
    rw [List.mem_cons, not_or] at h
    simpa [isAbsolute] using Ne.symm h.1

theorem mem_join (hslash : slash ∉ name) {b : UInt8} (h : b ∈ p) : b ∈ join p name := by
  unfold join
  rw [if_neg (by simp [isAbsolute_of_slash_not_mem hslash])]
  split <;> simp [h]

end Components

section Parent

variable {p : Path} {name : Text}

theorem slash_not_mem_fileName (p : Path) : slash ∉ fileName p := by
  intro h
  have hall := List.all_takeWhile (p := (· != slash)) (l := p.reverse)
  rw [List.all_eq_true] at hall
  have := hall slash (by simpa [fileName] using h)
  simp at this

theorem mem_of_mem_fileName {b : UInt8} (h : b ∈ fileName p) : b ∈ p := by
  rw [fileName, List.mem_reverse] at h
  exact List.mem_reverse.mp (List.takeWhile_subset _ h)

/-- A path without a last name ends in a slash. -/
theorem getLast?_of_fileName_eq_nil (h : fileName p = []) (hp : p ≠ []) :
    p.getLast? = some slash := by
  obtain ⟨front, last, rfl⟩ := List.eq_nil_or_concat p |>.resolve_left hp
  rw [List.concat_eq_append] at h ⊢
  by_cases hlast : last = slash
  · rw [List.getLast?_concat, hlast]
  · simp [fileName, hlast] at h

/-- Joining puts a name behind a slash, or behind nothing. -/
theorem exists_join_eq (hslash : slash ∉ name) (p : Path) :
    ∃ front, join p name = front ++ name ∧ p.length ≤ front.length ∧
      (front = [] ∨ ∃ q, front = q ++ [slash]) := by
  unfold join
  rw [if_neg (by simp [isAbsolute_of_slash_not_mem hslash])]
  cases hname : hasFileName p with
  | true => exact ⟨p ++ [slash], by simp, by simp, .inr ⟨p, rfl⟩⟩
  | false =>
    refine ⟨p, by simp, Nat.le_refl _, ?_⟩
    by_cases hp : p = []
    · exact .inl hp
    · exact .inr (eq_append_slash_of_not_hasFileName hname hp)

/-- A name makes a path longer. -/
theorem length_lt_join (h : IsName name) (p : Path) : p.length < (join p name).length := by
  obtain ⟨front, hjoin, hlength, -⟩ := exists_join_eq h.slash p
  have hname := List.length_pos_iff.mpr h.ne_nil
  rw [hjoin, List.length_append]
  omega

/-- A name at the end leaves no slash there. -/
theorem getLast?_join (h : IsName name) (p : Path) : (join p name).getLast? ≠ some slash := by
  obtain ⟨front, hjoin, -, -⟩ := exists_join_eq h.slash p
  obtain ⟨init, last, rfl⟩ := List.eq_nil_or_concat name |>.resolve_left h.ne_nil
  rw [hjoin, List.concat_eq_append, ← List.append_assoc, List.getLast?_concat]
  exact fun hlast => h.slash (by simp [Option.some.inj hlast])

theorem join_ne_nil (h : IsName name) (p : Path) : join p name ≠ [] :=
  List.ne_nil_of_length_pos (Nat.zero_lt_of_lt (length_lt_join h p))

/-- A name is no slash. -/
theorem all_slash_join (h : IsName name) (p : Path) : (join p name).all (· == slash) = false := by
  obtain ⟨front, hjoin, -, -⟩ := exists_join_eq h.slash p
  obtain ⟨b, name, rfl⟩ := List.exists_cons_of_ne_nil h.ne_nil
  rw [hjoin, List.all_append, List.all_cons]
  have hb : (b == slash) = false := by
    simpa using fun heq : b = slash => h.slash (heq ▸ .head _)
  simp [hb]

theorem fileName_join (hslash : slash ∉ name) (p : Path) : fileName (join p name) = name := by
  obtain ⟨front, hjoin, -, hfront⟩ := exists_join_eq hslash p
  have hall : ∀ b ∈ name.reverse, (b != slash) = true := fun b hb => by
    simpa using fun heq : b = slash => hslash (heq ▸ List.mem_reverse.mp hb)
  have hstop : front.reverse.takeWhile (· != slash) = [] := by
    obtain rfl | ⟨q, rfl⟩ := hfront
    · rfl
    · simp
  unfold fileName
  rw [hjoin, List.reverse_append, List.takeWhile_append_of_pos hall, hstop, List.append_nil,
    List.reverse_reverse]

theorem parent_of_slashes (h : p.all (· == slash) = true) : parent p = p := if_pos h

/-- A path that is more than slashes is a folder, some slashes, and a last name. -/
theorem exists_folder (h : p.all (· == slash) = false) :
    ∃ folder slashes, p = folder ++ (slashes ++ fileName p) ∧ (∀ b ∈ slashes, b = slash) ∧
      (slashes = [] → folder = []) ∧
      parent p = if folder = [] ∧ isAbsolute p then [slash] else folder := by
  refine ⟨((p.reverse.dropWhile (· != slash)).dropWhile (· == slash)).reverse,
    ((p.reverse.dropWhile (· != slash)).takeWhile (· == slash)).reverse, ?_, ?_, ?_, ?_⟩
  · unfold fileName
    rw [← List.reverse_append, ← List.reverse_append, List.append_assoc,
      List.takeWhile_append_dropWhile, List.takeWhile_append_dropWhile, List.reverse_reverse]
  · intro b hb
    have hall := List.all_takeWhile (p := (· == slash)) (l := p.reverse.dropWhile (· != slash))
    rw [List.all_eq_true] at hall
    simpa using hall b (by simpa using hb)
  · intro hnone
    cases hrest : p.reverse.dropWhile (· != slash) with
    | nil => rfl
    | cons b rest =>
      have hb : (b != slash) = false := by
        have hhead := List.head?_dropWhile_not (· != slash) p.reverse
        rw [hrest] at hhead
        simpa using hhead
      obtain rfl : b = slash := by simpa using hb
      rw [hrest] at hnone
      simp at hnone
  · unfold parent
    rw [if_neg (by simp [h])]

theorem components_slashes {slashes : Text} (h : ∀ b ∈ slashes, b = slash) (q : Text) :
    components (slashes ++ q) = components q := by
  induction slashes with
  | nil => rfl
  | cons b slashes ih =>
    obtain ⟨rfl, hslashes⟩ := List.forall_mem_cons.mp h
    rw [List.cons_append, ← List.nil_append (slash :: _), components_append_slash, components_nil,
      List.nil_append, ih hslashes]

theorem components_append_slashes {slashes : Text} (h : ∀ b ∈ slashes, b = slash) (p : Text) :
    components (p ++ slashes) = components p := by
  cases slashes with
  | nil => rw [List.append_nil]
  | cons b slashes =>
    obtain ⟨rfl, hslashes⟩ := List.forall_mem_cons.mp h
    have hnone := components_slashes hslashes []
    rw [List.append_nil] at hnone
    rw [components_append_slash, hnone, components_nil, List.append_nil]

/-- A path with a component is more than slashes. -/
theorem not_slashes_of_components (h : components p ≠ []) : p.all (· == slash) = false := by
  rw [← Bool.not_eq_true]
  intro hall
  have hcomponents := @components_slashes p (by simpa using hall) []
  rw [List.append_nil] at hcomponents
  exact h hcomponents

/-- The parent leads where the path leads, but for the last component. -/
theorem components_parent (h : p.all (· == slash) = false) :
    components p = components (parent p) ++ components (fileName p) := by
  obtain ⟨folder, slashes, hp, hslashes, hnone, hparent⟩ := exists_folder h
  have hfolder : components (parent p) = components folder := by
    rw [hparent]
    split
    · next hroot =>
      rw [hroot.1]
      rfl
    · rfl
  rw [hfolder]
  refine (congrArg components hp).trans ?_
  cases slashes with
  | nil => simp [hnone rfl]
  | cons b slashes =>
    obtain ⟨rfl, htail⟩ := List.forall_mem_cons.mp hslashes
    rw [List.cons_append, components_append_slash, components_slashes htail]

theorem components_eq_parent_append (h : p.all (· == slash) = false) : components p =
    components (parent p) ++ if fileName p = [] then [] else [fileName p] := by
  rw [components_parent h, components_of_slash_not_mem (slash_not_mem_fileName p)]

theorem components_parent_isPrefix (p : Path) : components (parent p) <+: components p := by
  cases h : p.all (· == slash) with
  | true => exact (parent_of_slashes h).symm ▸ List.prefix_rfl
  | false =>
    rw [components_parent h]
    exact List.prefix_append _ _

theorem length_parent_le (p : Path) : (parent p).length ≤ p.length := by
  cases h : p.all (· == slash) with
  | true => exact (parent_of_slashes h).symm ▸ Nat.le_refl _
  | false =>
    obtain ⟨folder, slashes, hp, -, -, hparent⟩ := exists_folder h
    rw [hparent]
    split
    · next hroot =>
      cases p with
      | nil => cases h
      | cons b p => simp
    · rw [hp, List.length_append]
      exact Nat.le_add_right _ _

/-- The parent of a path with a name more leads where the path leads. -/
theorem components_parent_join (h : IsName name) (p : Path) :
    components (parent (join p name)) = components p := by
  have hsplit := components_parent (all_slash_join h p)
  rw [fileName_join h.slash, components_name h,
    components_join (isAbsolute_of_slash_not_mem h.slash), components_name h] at hsplit
  exact (List.append_cancel_right hsplit).symm

theorem isAbsolute_parent (p : Path) : isAbsolute (parent p) = isAbsolute p := by
  cases h : p.all (· == slash) with
  | true => rw [parent_of_slashes h]
  | false =>
    obtain ⟨folder, slashes, hp, -, -, hparent⟩ := exists_folder h
    rw [hparent]
    cases folder with
    | nil => cases habsolute : isAbsolute p <;> simp <;> rfl
    | cons b folder =>
      rw [if_neg (by simp), hp]
      rfl

theorem mem_of_mem_parent {b : UInt8} (h : b ∈ parent p) : b ∈ p := by
  cases hall : p.all (· == slash) with
  | true => rwa [parent_of_slashes hall] at h
  | false =>
    obtain ⟨folder, slashes, hp, -, -, hparent⟩ := exists_folder hall
    rw [hparent] at h
    split at h
    · next hroot =>
      obtain rfl := List.mem_singleton.mp h
      exact List.mem_of_mem_head? (by simpa [isAbsolute] using hroot.2)
    · rw [hp]
      exact List.mem_append_left _ h

end Parent

end Path

end NativeBuild
