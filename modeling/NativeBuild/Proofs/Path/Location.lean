import NativeBuild.Proofs.Path.Components

/-!
# Where a path leads

A path leads from the root or from the current directory to a location. Joining a name to it goes
one step further down, and whatever is on the way to it leads above it or to a location that it
leaves again. The normal form of an absolute path leads where the path leads, straight from the
root.
-/
namespace NativeBuild.Path

section Normal

/-- The names that a normal form is made of. -/
def IsOrdinary (name : Text) : Prop := name ≠ [] ∧ slash ∉ name ∧ name ≠ dot ∧ name ≠ dotDot

theorem IsName.isOrdinary {name : Text} (h : IsName name) : IsOrdinary name :=
  ⟨h.ne_nil, h.slash, h.ne_dot, h.ne_dotDot⟩

theorem goTo_of_ordinary {dir : Location} {names : List Text}
    (h : ∀ name ∈ names, IsOrdinary name) :
    goTo dir names = dir ++ names ∧ leaves dir names = [] :=
  goTo_of_names fun name hname => (h name hname).2.2

theorem join_slash_cons (name next : Text) (names : List Text) :
    Text.join [slash] (name :: next :: names) = name ++ slash :: Text.join [slash] (next :: names) :=
  Text.join_cons_cons [slash] name next names

/-- Names between slashes are read back. -/
theorem components_joined {names : List Text} (h : ∀ name ∈ names, name ≠ [] ∧ slash ∉ name) :
    components (Text.join [slash] names) = names := by
  refine Text.words_join (List.cons_ne_nil slash []) (by simp) fun name hname => ?_
  obtain ⟨hne, hslash⟩ := h name hname
  exact ⟨hne, fun b hb => by simpa using fun heq : b = slash => hslash (heq ▸ hb)⟩

theorem zero_not_mem_joined {names : List Text} (h : ∀ name ∈ names, 0 ∉ name) :
    0 ∉ Text.join [slash] names := by
  induction names with
  | nil => simp [Text.join]
  | cons name names ih =>
    obtain ⟨hname, hnames⟩ := List.forall_mem_cons.mp h
    cases names with
    | nil => simpa [Text.join] using hname
    | cons next names =>
      have hslash : (0 : UInt8) ≠ slash := by decide
      rw [join_slash_cons, List.mem_append, List.mem_cons]
      exact not_or.mpr ⟨hname, not_or.mpr ⟨hslash, ih hnames⟩⟩

theorem components_pathOf {l : Location} (h : ∀ name ∈ l, IsOrdinary name) :
    components (FileSystem.pathOf l) = l := by
  unfold FileSystem.pathOf
  rw [← List.nil_append (slash :: _), components_append_slash,
    components_joined fun name hname => ⟨(h name hname).1, (h name hname).2.1⟩]
  rfl

theorem zero_not_mem_pathOf {l : Location} (h : ∀ name ∈ l, 0 ∉ name) :
    0 ∉ FileSystem.pathOf l := by
  have hslash : (0 : UInt8) ≠ slash := by decide
  unfold FileSystem.pathOf
  rw [List.mem_cons, not_or]
  exact ⟨hslash, zero_not_mem_joined h⟩

/-- What has been read of an absolute path leads to a location. -/
structure Normalizing.LeadsTo (s : Normalizing) (at_ : Location) : Prop where
  absolute : s.absolute = true
  names : s.names.reverse = at_
  ordinary : ∀ name ∈ s.names, IsOrdinary name

variable {s : Normalizing} {at_ : Location}

/-- One piece more leads where its components lead. -/
theorem Normalizing.LeadsTo.push (h : s.LeadsTo at_) {piece : Text} (hslash : slash ∉ piece) :
    (s.push piece).LeadsTo (goTo at_ ([piece].filter (· ≠ []))) := by
  unfold Normalizing.push
  by_cases hnil : piece = []
  · rw [if_pos (.inl hnil)]
    subst hnil
    exact ⟨h.absolute, h.names, h.ordinary⟩
  rw [List.filter_cons_of_pos (by simpa using hnil), List.filter_nil]
  by_cases hdot : piece = dot
  · rw [if_pos (.inr hdot), goTo, if_pos hdot]
    exact ⟨h.absolute, h.names, h.ordinary⟩
  rw [if_neg (not_or.mpr ⟨hnil, hdot⟩), goTo, if_neg hdot]
  by_cases hdotDot : piece = dotDot
  · rw [if_pos hdotDot, if_pos hdotDot, goTo, ← h.names]
    cases hnames : s.names with
    | nil =>
      dsimp only
      rw [if_pos h.absolute]
      exact ⟨h.absolute, by rw [hnames]; rfl, h.ordinary⟩
    | cons last before =>
      have hall := hnames ▸ h.ordinary
      have hlast := (hall last (.head _)).2.2.2
      dsimp only
      rw [if_neg hlast]
      exact ⟨h.absolute, by simp, fun name hname => hall name (.tail _ hname)⟩
  · rw [if_neg hdotDot, if_neg hdotDot, goTo]
    refine ⟨h.absolute, by simp [h.names], fun name hname => ?_⟩
    obtain rfl | hname := List.mem_cons.mp hname
    · exact ⟨hnil, hslash, hdot, hdotDot⟩
    · exact h.ordinary name hname

theorem Normalizing.LeadsTo.foldl (h : s.LeadsTo at_) {pieces : List Text}
    (hpieces : ∀ piece ∈ pieces, slash ∉ piece) :
    (pieces.foldl Normalizing.push s).LeadsTo (goTo at_ (pieces.filter (· ≠ []))) := by
  induction pieces generalizing s at_ with
  | nil => exact h
  | cons piece pieces ih =>
    obtain ⟨hpiece, hrest⟩ := List.forall_mem_cons.mp hpieces
    rw [← List.singleton_append, List.filter_append, goTo_append]
    exact ih (h.push hpiece) hrest

/-- The text is the path from the root, and may end in a slash more. -/
theorem Normalizing.LeadsTo.text (h : s.LeadsTo at_) :
    (∀ name ∈ at_, IsOrdinary name) ∧
      ∃ slashes, (∀ b ∈ slashes, b = slash) ∧ s.text = FileSystem.pathOf at_ ++ slashes := by
  refine ⟨fun name hname => h.ordinary name (List.mem_reverse.mp (h.names ▸ hname)), ?_⟩
  unfold Normalizing.text
  rw [← h.names]
  cases s.names with
  | nil => exact ⟨[], by simp, if_pos h.absolute⟩
  | cons last before =>
    dsimp only
    rw [if_pos h.absolute]
    exact ⟨if s.slashed && last != dotDot then [slash] else [], by simp, rfl⟩

/-- A walk up and down over ordinary names ends at ordinary names. -/
theorem ordinary_goTo {dir : Location} {names : List Text} (hdir : ∀ name ∈ dir, IsOrdinary name)
    (hnames : ∀ name ∈ names, name ≠ [] ∧ slash ∉ name) :
    ∀ name ∈ goTo dir names, IsOrdinary name := by
  induction names generalizing dir with
  | nil => exact hdir
  | cons name names ih =>
    obtain ⟨⟨hne, hslash⟩, hrest⟩ := List.forall_mem_cons.mp hnames
    rw [goTo]
    split
    · exact ih hdir hrest
    split
    · exact ih (fun name hname => hdir name (List.dropLast_subset dir hname)) hrest
    · next hdot hdotDot =>
      refine ih (fun other hother => ?_) hrest
      obtain hother | hother := List.mem_append.mp hother
      · exact hdir other hother
      · rw [List.mem_singleton.mp hother]
        exact ⟨hne, hslash, hdot, hdotDot⟩

/-- An absolute path leads to ordinary names. -/
theorem ordinary_goTo_components (p : Path) : ∀ name ∈ goTo [] (components p), IsOrdinary name :=
  ordinary_goTo (by simp) fun _ hname =>
    ⟨(of_mem_components hname).1, (of_mem_components hname).2.1⟩

/-- The normal form of an absolute path is the path from the root to where it leads, but for slashes
at its end. -/
theorem exists_normal_eq {p : Path} (h : isAbsolute p = true) :
    ∃ slashes, (∀ b ∈ slashes, b = slash) ∧
      normal p = FileSystem.pathOf (goTo [] (components p)) ++ slashes := by
  unfold normal
  split
  · next hall =>
    have hslashes : ∀ b ∈ p, b = slash := by simpa using hall
    have hcomponents := components_slashes hslashes []
    rw [List.append_nil] at hcomponents
    obtain ⟨b, rest, rfl⟩ := @List.exists_cons_of_ne_nil _ p fun hnil => by
      rw [hnil] at h
      cases h
    obtain ⟨rfl, hrest⟩ := List.forall_mem_cons.mp hslashes
    exact ⟨rest, hrest, by rw [hcomponents]; rfl⟩
  · have hstart : ({ absolute := isAbsolute p } : Normalizing).LeadsTo [] := ⟨h, rfl, by simp⟩
    refine (hstart.foldl fun piece hpiece hslash => ?_).text.2
    have hcut := (Text.of_mem_pieces hpiece slash hslash).2
    simp at hcut

/-- The normal form of an absolute path leads there straight from the root. -/
theorem components_normal {p : Path} (habsolute : isAbsolute p = true) (hzero : 0 ∉ p) :
    components (normal p) = goTo [] (components p) ∧ isAbsolute (normal p) = true ∧
      0 ∉ normal p := by
  obtain ⟨slashes, hslashes, hnormal⟩ := exists_normal_eq habsolute
  rw [hnormal]
  refine ⟨?_, rfl, ?_⟩
  · rw [components_append_slashes hslashes, components_pathOf (ordinary_goTo_components p)]
  · rw [List.mem_append, not_or]
    refine ⟨zero_not_mem_pathOf fun name hname hmem => ?_, fun hmem => ?_⟩
    · obtain hroot | hname := mem_of_mem_goTo hname
      · exact List.not_mem_nil hroot
      · exact hzero ((of_mem_components hname).2.2 0 hmem)
    · exact absurd (hslashes 0 hmem) (by decide)

end Normal

section Location

/-- Where a path starts. -/
def start (here : Location) (p : Path) : Location := if isAbsolute p then [] else here

/-- Where a path leads. -/
def location (here : Location) (p : Path) : Location := goTo (start here p) (components p)

/-- The locations that a path leaves again by two dots. -/
def left (here : Location) (p : Path) : List Location := leaves (start here p) (components p)

variable {here : Location} {p q : Path} {name : Text}

theorem start_join (hslash : slash ∉ name) (here : Location) (p : Path) :
    start here (join p name) = start here p := by
  unfold start
  rw [isAbsolute_join (isAbsolute_of_slash_not_mem hslash)]

theorem components_join_name (h : IsName name) (p : Path) :
    components (join p name) = components p ++ [name] := by
  rw [components_join (isAbsolute_of_slash_not_mem h.slash), components_name h]

/-- What is joined leads on from where the path leads. -/
theorem location_join_of_relative {child : Text} (h : isAbsolute child = false) (here : Location)
    (p : Path) : location here (join p child) = goTo (location here p) (components child) := by
  unfold location start
  rw [isAbsolute_join h, components_join h, goTo_append]

/-- A name more leads one step further down. -/
theorem location_join (h : IsName name) (here : Location) (p : Path) :
    location here (join p name) = location here p ++ [name] := by
  unfold location
  rw [start_join h.slash, components_join_name h, goTo_append, goTo_name h]

theorem left_join (h : IsName name) (here : Location) (p : Path) :
    left here (join p name) = left here p := by
  unfold left
  rw [start_join h.slash, components_join_name h, leaves_append, leaves_name h, List.append_nil]

/-- A path is on the way to another one. -/
structure Above (q p : Path) : Prop where
  components : components q <+: components p
  absolute : isAbsolute q = isAbsolute p
  bytes : ∀ b ∈ q, b ∈ p

theorem Above.refl (p : Path) : Above p p := ⟨List.prefix_rfl, rfl, fun _ h => h⟩

theorem Above.trans {r : Path} (h : Above r q) (h' : Above q p) : Above r p :=
  ⟨h.components.trans h'.components, h.absolute.trans h'.absolute,
    fun b hb => h'.bytes b (h.bytes b hb)⟩

theorem above_parent (p : Path) : Above (parent p) p :=
  ⟨components_parent_isPrefix p, isAbsolute_parent p, fun _ h => mem_of_mem_parent h⟩

/-- What is on the way to a path leads above its location, or to one that is left again. -/
theorem Above.location (h : Above q p) (here : Location) :
    location here q <+: location here p ∨ location here q ∈ left here p := by
  have hstart : start here q = start here p := by
    unfold start
    rw [h.absolute]
  unfold Path.location left
  rw [hstart]
  exact goTo_take _ h.components

theorem isAbsolute_pathOf (l : Location) : isAbsolute (FileSystem.pathOf l) = true := rfl

/-- A path leads to a location, and leaves some others again on the way. -/
structure Leads (here : Location) (p : Path) (at_ : Location) (back : List Location) : Prop where
  zero : 0 ∉ p
  location : Path.location here p = at_
  left : Path.left here p = back

variable {at_ : Location} {back : List Location}

theorem leads (here : Location) (hzero : 0 ∉ p) :
    Leads here p (Path.location here p) (Path.left here p) := ⟨hzero, rfl, rfl⟩

theorem Leads.join (h : Leads here p at_ back) (hname : IsName name) :
    Leads here (Path.join p name) (at_ ++ [name]) back :=
  ⟨zero_not_mem_join h.zero hname.zero, h.location ▸ location_join hname here p,
    h.left ▸ left_join hname here p⟩

/-- The absolute form of a path leads from the root to the current directory, and on from there. -/
theorem Leads.absolute (h : Leads here p at_ back) (hhere : ∀ name ∈ here, IsName name) :
    Leads here ((absolute? (FileSystem.pathOf here) p).getD p) at_ back := by
  have hordinary : ∀ name ∈ here, IsOrdinary name := fun name hname => (hhere name hname).isOrdinary
  unfold absolute?
  by_cases hnil : p = []
  · rw [if_pos hnil]
    exact h
  rw [if_neg hnil, Option.getD_some]
  cases habsolute : isAbsolute p with
  | true => exact h
  | false =>
    rw [if_neg (by simp)]
    obtain ⟨hstraight, hleaves⟩ := @goTo_of_ordinary [] _ hordinary
    rw [List.nil_append] at hstraight
    have hstart : start here (Path.join (FileSystem.pathOf here) p) = [] := by
      unfold start
      rw [isAbsolute_join habsolute, isAbsolute_pathOf, if_pos rfl]
    have hrelative : start here p = here := by
      unfold start
      rw [habsolute, if_neg (by simp)]
    refine ⟨zero_not_mem_join (zero_not_mem_pathOf fun name hname => (hhere name hname).zero) h.zero,
      ?_, ?_⟩
    · rw [← h.location, Path.location, Path.location, hstart, hrelative, components_join habsolute,
        components_pathOf hordinary, goTo_append, hstraight]
    · rw [← h.left, Path.left, Path.left, hstart, hrelative, components_join habsolute,
        components_pathOf hordinary, leaves_append, hstraight, hleaves, List.nil_append]

theorem isAbsolute_absolute (here : Location) (hne : p ≠ []) :
    isAbsolute ((absolute? (FileSystem.pathOf here) p).getD p) = true := by
  unfold absolute?
  rw [if_neg hne, Option.getD_some]
  split
  · assumption
  · next hrelative => rw [isAbsolute_join (by simpa using hrelative), isAbsolute_pathOf]

/-- The absolute normal form leads where the path leads, and leaves nothing again. -/
theorem Leads.absoluteNormal (h : Leads here p at_ back) (hhere : ∀ name ∈ here, IsName name) :
    Leads here (Path.absoluteNormal (FileSystem.pathOf here) p) at_ [] := by
  by_cases hnil : p = []
  · subst hnil
    exact ⟨List.not_mem_nil, h.location, rfl⟩
  have habsolute := isAbsolute_absolute here hnil
  obtain ⟨hzero, hlocation, -⟩ := h.absolute hhere
  unfold Path.absoluteNormal
  generalize (absolute? (FileSystem.pathOf here) p).getD p = q at habsolute hzero hlocation ⊢
  obtain ⟨hcomponents, hnormal, hnormalZero⟩ := components_normal habsolute hzero
  obtain ⟨hstraight, hleaves⟩ := @goTo_of_ordinary [] _ (ordinary_goTo_components q)
  refine ⟨hnormalZero, ?_, ?_⟩
  · rw [← hlocation, Path.location, Path.location, start, start, if_pos hnormal, if_pos habsolute,
      hcomponents, hstraight, List.nil_append]
  · rw [Path.left, start, if_pos hnormal, hcomponents, hleaves]

/-- The parent of a path that leads straight to a name leads to the directory of the name, or the
path ends in slashes. -/
theorem Leads.parent (h : Leads here p (at_ ++ [name]) []) :
    Leads here (Path.parent p) at_ [] ∨ Leads here (Path.parent p) (at_ ++ [name]) [] := by
  cases hall : p.all (· == slash) with
  | true =>
    exact .inr ((parent_of_slashes hall).symm ▸ h)
  | false =>
    have hzero : 0 ∉ Path.parent p := fun hmem => h.zero (mem_of_mem_parent hmem)
    have hstart : start here (Path.parent p) = start here p := by
      unfold start
      rw [isAbsolute_parent]
    have hlocation := h.location
    have hleft := h.left
    unfold Path.location at hlocation
    unfold Path.left at hleft
    rw [components_parent hall, goTo_append, components_of_slash_not_mem (slash_not_mem_fileName p)]
      at hlocation
    rw [components_parent hall, leaves_append, components_of_slash_not_mem (slash_not_mem_fileName p),
      List.append_eq_nil_iff] at hleft
    have hparent : ∀ l, goTo (start here p) (components (Path.parent p)) = l →
        Leads here (Path.parent p) l [] := fun l hl =>
      ⟨hzero, by rw [Path.location, hstart, hl], by rw [Path.left, hstart, hleft.1]⟩
    by_cases hnone : fileName p = []
    · rw [if_pos hnone, goTo] at hlocation
      exact .inr (hparent _ hlocation)
    rw [if_neg hnone, goTo] at hlocation
    rw [if_neg hnone, leaves] at hleft
    split at hlocation
    · exact .inr (hparent _ hlocation)
    · next hdot =>
      rw [if_neg hdot] at hleft
      split at hlocation
      · next hdotDot =>
        rw [if_pos hdotDot] at hleft
        cases hleft.2
      · rw [goTo] at hlocation
        exact .inl (hparent _ (List.append_inj_left' hlocation rfl))

/-- A directory of slashes alone is the root. -/
theorem Leads.absoluteNormalIn (h : Leads here p at_ back) (hhere : ∀ name ∈ here, IsName name)
    (hname : IsName name) (hnormal : normal name = name) :
    Leads here (Path.absoluteNormalIn (FileSystem.pathOf here) p name) (at_ ++ [name]) [] := by
  unfold Path.absoluteNormalIn
  split
  · next hroot =>
    obtain ⟨hne, hall⟩ := hroot
    have hslashes : ∀ b ∈ p, b = slash := by simpa using hall
    have habsolute : ∀ q : Text, isAbsolute (p ++ q) = true := by
      intro q
      cases p with
      | nil => exact absurd rfl hne
      | cons b p =>
        obtain rfl := hslashes b (.head _)
        rfl
    have hat : at_ = [] := by
      have hcomponents := components_slashes hslashes []
      have hstart := habsolute []
      rw [List.append_nil] at hcomponents hstart
      rw [← h.location, Path.location, start, if_pos hstart, hcomponents]
      rfl
    have hcomponents : components (p ++ name) = [name] := by
      rw [components_slashes hslashes, components_name hname]
    rw [hnormal, hat]
    refine ⟨?_, ?_, ?_⟩
    · rw [List.mem_append, not_or]
      exact ⟨h.zero, hname.zero⟩
    · rw [Path.location, start, if_pos (habsolute name), hcomponents, goTo_name hname]
    · rw [Path.left, start, if_pos (habsolute name), hcomponents, leaves_name hname]
  · exact (h.join hname).absoluteNormal hhere

end Location

end NativeBuild.Path
