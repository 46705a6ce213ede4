import NativeBuild.Proofs.Files.Walks

/-!
# Directories that can be entered

A path can be entered when there is a directory wherever it goes down. Then a name in it stands
for what is at its location, and the path can still be entered when files change and entries are
added. If anything is found at a name, the path in front of the name can be entered.
-/
namespace NativeBuild.FileSystem

open NativeBuild.Path (IsName goTo leaves goTo_dot goTo_dotDot goTo_down leaves_dot leaves_dotDot
  leaves_down)

/-- A directory stands at a location. -/
def directoryAt (fs : FileSystem) (l : Location) : Bool := (fs.get? l).any Entry.isDirectory

theorem directoryAt_iff {fs : FileSystem} {l : Location} :
    fs.directoryAt l = true ↔ ∃ mode, fs.get? l = some (.directory mode) := by
  unfold directoryAt
  cases h : fs.get? l with
  | none => simp
  | some e => cases e <;> simp [Entry.isDirectory]

/-- A file is no directory. -/
theorem not_directory_of_file {e : Option Entry} (h : e.any Entry.isFile = true) :
    e.any Entry.isDirectory = false := by
  obtain _ | _ | _ | _ := e <;> first | rfl | cases h

theorem Plain.isName_of_directoryAt {fs : FileSystem} {l : Location} (h : fs.Plain)
    (hl : fs.directoryAt l = true) : ∀ name ∈ l, IsName name := by
  obtain ⟨mode, hget⟩ := directoryAt_iff.mp hl
  by_cases hroot : l = []
  · subst hroot
    simp
  · exact h.names _ (mem_of_get? hroot hget)

/-- Wherever the names go down from a directory, there is a directory. -/
def Through (fs : FileSystem) (dir : Location) : List Text → Prop
  | [] => True
  | name :: rest =>
    if name = Path.dot then fs.Through dir rest
    else if name = Path.dotDot then fs.Through dir.dropLast rest
    else name.length ≤ maxName ∧ fs.directoryAt (dir ++ [name]) = true ∧
      fs.Through (dir ++ [name]) rest

section Through

variable {fs fs' : FileSystem} {follow : Bool} {dir : Location} {names more : List Text}

@[simp] theorem through_dot (dir : Location) (rest : List Text) :
    fs.Through dir (Path.dot :: rest) ↔ fs.Through dir rest := by
  rw [Through, if_pos rfl]

@[simp] theorem through_dotDot (dir : Location) (rest : List Text) :
    fs.Through dir (Path.dotDot :: rest) ↔ fs.Through dir.dropLast rest := by
  rw [Through, if_neg (by decide), if_pos rfl]

theorem through_down {name : Text} (hdot : name ≠ Path.dot) (hdotDot : name ≠ Path.dotDot)
    (dir : Location) (rest : List Text) : fs.Through dir (name :: rest) ↔
      name.length ≤ maxName ∧ fs.directoryAt (dir ++ [name]) = true ∧
        fs.Through (dir ++ [name]) rest := by
  rw [Through, if_neg hdot, if_neg hdotDot]

theorem through_append : fs.Through dir (names ++ more) ↔
    fs.Through dir names ∧ fs.Through (goTo dir names) more := by
  induction dir, names using Path.goTo_induction with
  | here => simp [Through, goTo]
  | stay dir rest ih => rw [List.cons_append, through_dot, through_dot, goTo_dot, ih]
  | up dir rest ih => rw [List.cons_append, through_dotDot, through_dotDot, goTo_dotDot, ih]
  | down dir name rest hdot hdotDot ih =>
    rw [List.cons_append, through_down hdot hdotDot, through_down hdot hdotDot,
      goTo_down hdot hdotDot, ih, and_assoc, and_assoc]

theorem through_name {name : Text} (h : IsName name) :
    fs.Through dir [name] ↔ fs.directoryAt (dir ++ [name]) = true := by
  rw [through_down h.ne_dot h.ne_dotDot]
  exact ⟨fun hall => hall.2.1, fun hdirectory => ⟨h.length_le, hdirectory, trivial⟩⟩

/-- What holds of every directory on the way is enough to enter them. -/
theorem Through.mono (h : fs.Through dir names)
    (hkeep : ∀ l, l <+: goTo dir names ∨ l ∈ leaves dir names →
      fs.directoryAt l = true → fs'.directoryAt l = true) : fs'.Through dir names := by
  induction dir, names using Path.goTo_induction with
  | here => trivial
  | stay dir rest ih =>
    rw [through_dot] at h ⊢
    rw [goTo_dot, leaves_dot] at hkeep
    exact ih h hkeep
  | up dir rest ih =>
    rw [through_dotDot] at h ⊢
    rw [goTo_dotDot, leaves_dotDot] at hkeep
    exact ih h fun l hl => hkeep l (hl.imp_right (.tail _))
  | down dir name rest hdot hdotDot ih =>
    rw [through_down hdot hdotDot] at h ⊢
    rw [goTo_down hdot hdotDot, leaves_down hdot hdotDot] at hkeep
    exact ⟨h.1, hkeep _ (Path.prefix_goTo List.prefix_rfl rest) h.2.1, ih h.2.2 hkeep⟩

/-- Directories wherever the names go down can be entered. -/
theorem Plain.through (h : fs.Plain) (hway : ∀ l, l <+: goTo dir names ∨ l ∈ leaves dir names →
    fs.directoryAt l = true) : fs.Through dir names := by
  induction dir, names using Path.goTo_induction with
  | here => trivial
  | stay dir rest ih =>
    rw [goTo_dot, leaves_dot] at hway
    exact (through_dot dir rest).mpr (ih hway)
  | up dir rest ih =>
    rw [goTo_dotDot, leaves_dotDot] at hway
    exact (through_dotDot dir rest).mpr (ih fun l hl => hway l (hl.imp_right (.tail _)))
  | down dir name rest hdot hdotDot ih =>
    rw [goTo_down hdot hdotDot, leaves_down hdot hdotDot] at hway
    have hdirectory := hway _ (Path.prefix_goTo List.prefix_rfl rest)
    rw [through_down hdot hdotDot]
    exact ⟨(h.isName_of_directoryAt hdirectory name (by simp)).length_le, hdirectory, ih hway⟩

/-- There is a directory wherever the names lead. -/
theorem Through.directoryAt (h : fs.Through dir names) {l : Location} (hl : l <+: goTo dir names) :
    l <+: dir ∨ fs.directoryAt l = true := by
  induction dir, names using Path.goTo_induction with
  | here => exact .inl hl
  | stay dir rest ih => exact ih ((through_dot dir rest).mp h) (goTo_dot dir rest ▸ hl)
  | up dir rest ih =>
    rw [through_dotDot] at h
    rw [goTo_dotDot] at hl
    exact (ih h hl).imp_left (·.trans (List.dropLast_prefix dir))
  | down dir name rest hdot hdotDot ih =>
    rw [through_down hdot hdotDot] at h
    rw [goTo_down hdot hdotDot] at hl
    obtain hl | hl := ih h.2.2 hl
    · obtain rfl | hl := List.prefix_concat_iff.mp hl
      · exact .inr h.2.1
      · exact .inl hl
    · exact .inr hl

/-- A walk goes on behind directories that it can enter. -/
theorem walk_append_of_through (h : fs.Through dir names) (more : List Text) :
    fs.walk follow dir (names ++ more) = fs.walk follow (goTo dir names) more := by
  induction dir, names using Path.goTo_induction with
  | here => rfl
  | stay dir rest ih =>
    rw [List.cons_append, walk_dot, goTo_dot, ih ((through_dot dir rest).mp h)]
  | up dir rest ih =>
    rw [List.cons_append, walk_dotDot, goTo_dotDot, ih ((through_dotDot dir rest).mp h)]
  | down dir name rest hdot hdotDot ih =>
    obtain ⟨hlength, hdirectory, hrest⟩ := (through_down hdot hdotDot dir rest).mp h
    obtain ⟨mode, hget⟩ := directoryAt_iff.mp hdirectory
    rw [List.cons_append, walk_cons_of_isLookedUp ⟨hdot, hdotDot, hlength⟩, hget,
      goTo_down hdot hdotDot]
    exact ih hrest

/-- A walk that arrives behind some names has entered them all. -/
theorem through_of_walk (hmore : more ≠ []) {place : Place}
    (h : fs.walk follow dir (names ++ more) = .arrived place) :
    fs.Through dir names := by
  induction dir, names using Path.goTo_induction with
  | here => trivial
  | stay dir rest ih =>
    rw [List.cons_append, walk_dot] at h
    exact (through_dot dir rest).mpr (ih h)
  | up dir rest ih =>
    rw [List.cons_append, walk_dotDot] at h
    exact (through_dotDot dir rest).mpr (ih h)
  | down dir name rest hdot hdotDot ih =>
    obtain ⟨hlength, mode, hget, hrest⟩ := exists_walk_of_walk_cons hdot hdotDot
      (List.append_ne_nil_of_right_ne_nil rest hmore) h
    rw [through_down hdot hdotDot]
    exact ⟨hlength, directoryAt_iff.mpr ⟨mode, hget⟩, ih hrest⟩

end Through

/-- A path that can be entered. -/
structure Reaches (fs : FileSystem) (p : Path) : Prop where
  zero : 0 ∉ p
  through : fs.Through (Path.start fs.here p) (Path.components p)

section Reaches

variable {fs fs' : FileSystem} {p : Path} {name : Text}

/-- A path can still be entered if the directories on the way stay. -/
theorem Reaches.mono (h : fs.Reaches p) (hhere : fs'.here = fs.here)
    (hkeep : ∀ l, l <+: Path.location fs.here p ∨ l ∈ Path.left fs.here p →
      fs.directoryAt l = true → fs'.directoryAt l = true) : fs'.Reaches p :=
  ⟨h.zero, hhere ▸ h.through.mono hkeep⟩

/-- Directories wherever a path goes down. -/
theorem Plain.reaches (h : fs.Plain) (hzero : 0 ∉ p)
    (hway : ∀ l, l <+: Path.location fs.here p ∨ l ∈ Path.left fs.here p →
      fs.directoryAt l = true) : fs.Reaches p :=
  ⟨hzero, h.through hway⟩

/-- A name in a path can be entered if a directory stands there. -/
theorem reaches_join (hname : IsName name) : fs.Reaches (Path.join p name) ↔
    fs.Reaches p ∧ fs.directoryAt (Path.location fs.here p ++ [name]) = true := by
  have hzero : 0 ∉ Path.join p name ↔ 0 ∉ p :=
    ⟨fun h hmem => h (Path.mem_join hname.slash hmem), fun h => Path.zero_not_mem_join h hname.zero⟩
  have hthrough : fs.Through (Path.start fs.here (Path.join p name))
      (Path.components (Path.join p name)) ↔
      fs.Through (Path.start fs.here p) (Path.components p) ∧
        fs.directoryAt (Path.location fs.here p ++ [name]) = true := by
    rw [Path.start_join hname.slash, Path.components_join_name hname, through_append, through_name hname]
    rfl
  exact ⟨fun h => ⟨⟨hzero.mp h.zero, (hthrough.mp h.through).1⟩, (hthrough.mp h.through).2⟩,
    fun h => ⟨hzero.mpr h.1.zero, hthrough.mpr ⟨h.1.through, h.2⟩⟩⟩

end Reaches

section Names

variable {fs : FileSystem} {follow : Bool} {p : Path} {name : Text}

/-- A walk of one step. -/
theorem Plain.walk_name (h : fs.Plain) (hname : IsName name) (dir : Location) :
    fs.walk follow dir [name] = .arrived (match fs.get? (dir ++ [name]) with
      | none => .free (dir ++ [name])
      | some entry => .entry (dir ++ [name]) entry) := by
  rw [walk_cons_of_isLookedUp ⟨hname.ne_dot, hname.ne_dotDot, hname.length_le⟩]
  cases hget : fs.get? (dir ++ [name]) with
  | none => rfl
  | some entry =>
    cases entry with
    | link target => exact absurd hget (h.links _ target)
    | file => rfl
    | directory =>
      dsimp only
      rw [walk, hget, Option.getD_some]

theorem steps_join (hname : IsName name) (p : Path) :
    steps (Path.join p name) = Path.components p ++ [name] := by
  unfold steps
  dsimp only
  rw [Path.components_join_name hname, if_neg]
  simpa using Path.getLast?_join hname p

/-- A name in a path that can be entered stands for its location. -/
theorem Plain.resolve_join (h : fs.Plain) (hp : fs.Reaches p) (hname : IsName name) :
    fs.resolve follow (Path.join p name) =
      if maxPath ≤ (Path.join p name).length then .error .nameTooLong
      else .ok (match fs.get? (Path.location fs.here p ++ [name]) with
        | none => .free (Path.location fs.here p ++ [name])
        | some entry => .entry (Path.location fs.here p ++ [name]) entry) := by
  unfold resolve
  dsimp only
  rw [visible_eq (Path.zero_not_mem_join hp.zero hname.zero), if_neg (Path.join_ne_nil hname p)]
  split
  · rfl
  have hwalk : fs.walk follow (Path.start fs.here (Path.join p name)) (steps (Path.join p name)) =
      fs.walk follow (Path.location fs.here p) [name] := by
    rw [Path.start_join hname.slash, steps_join hname, walk_append_of_through hp.through]
    rfl
  exact (walkLinks_eq_ok_iff h.links).mpr (hwalk.trans (h.walk_name hname _))

theorem Plain.entryAt_join (h : fs.Plain) (hp : fs.Reaches p) (hname : IsName name) :
    fs.entryAt follow (Path.join p name) =
      if maxPath ≤ (Path.join p name).length then .error .nameTooLong
      else match fs.get? (Path.location fs.here p ++ [name]) with
        | none => .error .notFound
        | some entry => .ok (Path.location fs.here p ++ [name], entry) := by
  unfold entryAt
  rw [h.resolve_join hp hname]
  split
  · rfl
  · cases fs.get? (Path.location fs.here p ++ [name]) <;> rfl

theorem Plain.status_join (h : fs.Plain) (hp : fs.Reaches p) (hname : IsName name) :
    fs.status (Path.join p name) =
      if maxPath ≤ (Path.join p name).length then .error .nameTooLong
      else match fs.get? (Path.location fs.here p ++ [name]) with
        | none => .error .notFound
        | some entry => .ok (Path.location fs.here p ++ [name], entry) :=
  h.entryAt_join hp hname

/-- The names in a directory at a name in a path. -/
theorem Plain.list_join (h : fs.Plain) (hp : fs.Reaches p) (hname : IsName name)
    (hshort : (Path.join p name).length < maxPath)
    (hdirectory : fs.directoryAt (Path.location fs.here p ++ [name]) = true) :
    fs.list (Path.join p name) = .ok (fs.names (Path.location fs.here p ++ [name])) := by
  obtain ⟨mode, hget⟩ := directoryAt_iff.mp hdirectory
  unfold list
  rw [h.status_join hp hname, if_neg (Nat.not_le.mpr hshort), hget]
  rfl

/-- If anything is found at a name in a path, the path can be entered. -/
theorem Plain.reaches_of_status (h : fs.Plain) (hzero : 0 ∉ p) (hname : IsName name)
    {found : Location × Entry} (hstatus : fs.status (Path.join p name) = .ok found) :
    fs.Reaches p := by
  obtain ⟨-, -, hplace⟩ :=
    of_resolve_eq_ok (Path.zero_not_mem_join hzero hname.zero) (resolve_of_status hstatus)
  have hwalk := (walkLinks_eq_ok_iff h.links).mp hplace
  rw [steps_join hname, Path.start_join hname.slash] at hwalk
  exact ⟨hzero, through_of_walk (by simp) hwalk⟩

/-- What is found at a name in a path stands at its location. -/
theorem Plain.of_status_join (h : fs.Plain) (hzero : 0 ∉ p) (hname : IsName name) {l : Location}
    {entry : Entry} (hstatus : fs.status (Path.join p name) = .ok (l, entry)) :
    fs.Reaches p ∧ (Path.join p name).length < maxPath ∧ l = Path.location fs.here p ++ [name] ∧
      fs.get? (Path.location fs.here p ++ [name]) = some entry := by
  have hp := h.reaches_of_status hzero hname hstatus
  rw [h.status_join hp hname] at hstatus
  split at hstatus
  · cases hstatus
  next hlength =>
  cases hget : fs.get? (Path.location fs.here p ++ [name]) with
  | none =>
    rw [hget] at hstatus
    cases hstatus
  | some found =>
    rw [hget] at hstatus
    cases hstatus
    exact ⟨hp, Nat.lt_of_not_le hlength, rfl, rfl⟩

/-- Anything at a name in a path. -/
theorem Plain.of_doesExist_join (h : fs.Plain) (hzero : 0 ∉ p) (hname : IsName name)
    (hexists : fs.doesExist (Path.join p name) = true) : fs.Reaches p ∧
      (Path.join p name).length < maxPath ∧
      ∃ entry, fs.get? (Path.location fs.here p ++ [name]) = some entry := by
  unfold doesExist at hexists
  cases hstatus : fs.status (Path.join p name) with
  | error e =>
    rw [hstatus] at hexists
    cases hexists
  | ok found =>
    obtain ⟨hp, hlength, -, hget⟩ := h.of_status_join hzero hname hstatus
    exact ⟨hp, hlength, found.2, hget⟩

/-- A directory at a name in a path. -/
theorem Plain.isDirectory_join_iff (h : fs.Plain) (hzero : 0 ∉ p) (hname : IsName name) :
    fs.isDirectory (Path.join p name) = true ↔ fs.Reaches p ∧
      (Path.join p name).length < maxPath ∧
      fs.directoryAt (Path.location fs.here p ++ [name]) = true := by
  unfold isDirectory
  refine ⟨fun hdirectory => ?_, fun ⟨hp, hlength, hdirectory⟩ => ?_⟩
  · have hexists : fs.doesExist (Path.join p name) = true := by
      unfold doesExist
      split at hdirectory
      · next hstatus =>
        rw [hstatus]
        rfl
      · cases hdirectory
    obtain ⟨hp, hlength, entry, hget⟩ := h.of_doesExist_join hzero hname hexists
    refine ⟨hp, hlength, ?_⟩
    rw [h.status_join hp hname, if_neg (Nat.not_le.mpr hlength), hget] at hdirectory
    unfold directoryAt
    rw [hget]
    exact hdirectory
  · obtain ⟨mode, hget⟩ := directoryAt_iff.mp hdirectory
    rw [h.status_join hp hname, if_neg (Nat.not_le.mpr hlength), hget]
    rfl

/-- A directory is still found at a path if the directories on the way stay. -/
theorem Plain.isDirectory_mono {fs' : FileSystem} (h : fs.Plain) (h' : fs'.Plain) (hzero : 0 ∉ p)
    (hname : IsName name) (hhere : fs'.here = fs.here)
    (hkeep : ∀ l, l <+: Path.location fs.here p ++ [name] ∨ l ∈ Path.left fs.here p →
      fs.directoryAt l = true → fs'.directoryAt l = true)
    (hthere : fs.isDirectory (Path.join p name) = true) :
    fs'.isDirectory (Path.join p name) = true := by
  obtain ⟨hp, hlength, hdirectory⟩ := (h.isDirectory_join_iff hzero hname).mp hthere
  refine (h'.isDirectory_join_iff hzero hname).mpr ⟨hp.mono hhere fun l hl => hkeep l ?_, hlength, ?_⟩
  · exact hl.imp_left fun hl => hl.trans (List.prefix_append _ _)
  · rw [hhere]
    exact hkeep _ (.inl List.prefix_rfl) hdirectory

/-- The last component of a path that can be entered. -/
theorem Plain.resolveLeaf_join (h : fs.Plain) (hp : fs.Reaches p) (hname : IsName name) :
    fs.resolveLeaf (Path.join p name) =
      if maxPath ≤ (Path.join p name).length then .error .nameTooLong
      else .ok (.name (Path.location fs.here p ++ [name]) false) := by
  have hzero := Path.zero_not_mem_join hp.zero hname.zero
  split
  · next hlong =>
    unfold resolveLeaf
    rw [visible_eq hzero]
    dsimp only
    rw [if_neg (Path.join_ne_nil hname p), if_pos hlong]
    rfl
  next hlength =>
  have hvisible := visible_eq hzero
  rw [resolveLeaf_eq (hvisible.symm ▸ Path.join_ne_nil hname p)
    (hvisible.symm ▸ Nat.lt_of_not_le hlength)
    (hvisible.symm ▸ Path.components_join_name hname p), hvisible, Path.start_join hname.slash]
  have hwalk : fs.walk true (Path.start fs.here p) (Path.components p ++ [Path.dot]) =
      .arrived (.entry (Path.location fs.here p)
        ((fs.get? (Path.location fs.here p)).getD (.directory 0o755))) := by
    rw [walk_append_of_through hp.through]
    rfl
  rw [(walkLinks_eq_ok_iff h.links).mpr hwalk]
  dsimp only
  rw [if_neg hname.ne_dot, if_neg hname.ne_dotDot, if_neg (Nat.not_lt.mpr hname.length_le)]
  simp [Path.getLast?_join hname p]

/-- A last component is only found in a path that can be entered. -/
theorem Plain.reaches_of_resolveLeaf (h : fs.Plain) (hzero : 0 ∉ p) (hname : IsName name)
    {l : Location} {slashed : Bool}
    (hleaf : fs.resolveLeaf (Path.join p name) = .ok (.name l slashed)) : fs.Reaches p := by
  obtain ⟨-, -, last, before, dir, e, hcomponents, hwalk, -⟩ :=
    of_resolveLeaf_eq_name (Path.zero_not_mem_join hzero hname.zero) hleaf
  rw [Path.components_join_name hname] at hcomponents
  obtain rfl := List.append_inj_left' hcomponents rfl
  rw [Path.start_join hname.slash] at hwalk
  exact ⟨hzero, through_of_walk (by simp) ((walkLinks_eq_ok_iff h.links).mp hwalk)⟩

/-- The directory of a name is found at the parent of its path. -/
theorem Plain.isDirectory_parent (h : fs.Plain) (hp : fs.Reaches p) (hname : IsName name)
    (hlength : (Path.join p name).length < maxPath)
    (hdirectory : fs.directoryAt (Path.location fs.here p) = true) :
    Path.parent (Path.join p name) = [] ∨
      fs.isDirectory (Path.parent (Path.join p name)) = true := by
  by_cases hnil : Path.parent (Path.join p name) = []
  · exact .inl hnil
  right
  have hzero : 0 ∉ Path.parent (Path.join p name) := fun hmem =>
    Path.zero_not_mem_join hp.zero hname.zero (Path.mem_of_mem_parent hmem)
  have hshort := Nat.lt_of_le_of_lt (Path.length_parent_le _) hlength
  have hcomponents := Path.components_parent_join hname p
  have hstart : Path.start fs.here (Path.parent (Path.join p name)) = Path.start fs.here p := by
    rw [← Path.start_join hname.slash fs.here p]
    unfold Path.start
    rw [Path.isAbsolute_parent]
  generalize Path.parent (Path.join p name) = up at hnil hzero hshort hcomponents hstart ⊢
  obtain ⟨mode, hget⟩ := directoryAt_iff.mp hdirectory
  have hwalk : fs.walk true (Path.start fs.here up) (steps up) =
      .arrived (.entry (Path.location fs.here p) (.directory mode)) := by
    have hlocation : goTo (Path.start fs.here p) (Path.components p) = Path.location fs.here p := rfl
    obtain ⟨more, hsteps, hmore⟩ := exists_steps_eq up
    rw [hstart, hsteps, hcomponents, walk_append_of_through hp.through, hlocation]
    obtain rfl | rfl := hmore
    · simp [walk, hget]
    · simp [walk, hget]
  have hplace := (@walkLinks_eq_ok_iff _ _ _ _ _ h.links maxLinks).mpr hwalk
  have hvisible := visible_eq hzero
  rw [← hvisible, ← resolve_eq_walkLinks (hvisible.symm ▸ hnil) (hvisible.symm ▸ hshort)] at hplace
  exact isDirectory_iff.mpr ⟨_, mode, status_of_entry hplace⟩

/-- The names in a directory are the names of what is found there. -/
theorem mem_names_iff {dir : Location} :
    name ∈ fs.names dir ↔ ∃ entry, fs.get? (dir ++ [name]) = some entry := by
  unfold names
  rw [List.mem_filterMap]
  constructor
  · rintro ⟨⟨l, entry⟩, hentry, hlast⟩
    split at hlast
    · next hdir =>
      obtain ⟨before, rfl⟩ := List.getLast?_eq_some_iff.mp hlast
      dsimp only at hdir
      rw [List.dropLast_concat] at hdir
      subst hdir
      rw [get?, if_neg (by simp)]
      generalize fs.entries = entries at hentry
      induction entries with
      | nil => cases hentry
      | cons head rest ih =>
        rw [find?]
        split
        · exact ⟨_, rfl⟩
        · next hne =>
          obtain heq | hentry := List.mem_cons.mp hentry
          · exact absurd (heq ▸ rfl) hne
          · exact ih hentry
    · cases hlast
  · rintro ⟨entry, hget⟩
    refine ⟨_, mem_of_get? (by simp) hget, ?_⟩
    dsimp only
    rw [List.dropLast_concat, if_pos rfl, List.getLast?_concat]

end Names

end NativeBuild.FileSystem
