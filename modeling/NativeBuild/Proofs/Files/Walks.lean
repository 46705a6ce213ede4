import NativeBuild.Files.Directory
import NativeBuild.Proofs.Files.Opening
import NativeBuild.Proofs.Log.Places
import NativeBuild.Proofs.Path.Location

/-!
# Walks without links

In a file system without links a walk arrives where the names lead, or is refused. Wherever a path
is resolved, it stands for its location then, and everything that is found there or made there is
found or made at that location.
-/
namespace NativeBuild.FileSystem

open NativeBuild.Path (IsName goTo)

/-- Every name is one that a directory can hold, and there are no links. -/
structure Plain (fs : FileSystem) : Prop where
  here : ∀ name ∈ fs.here, IsName name
  names : ∀ e ∈ fs.entries, ∀ name ∈ e.1, IsName name
  links : ∀ l target, fs.get? l ≠ some (.link target)

section Plain

variable {fs fs' : FileSystem} {l : Location}

theorem of_mem_place {entries : List (Location × Entry)} {entry : Entry} {e : Location × Entry}
    (h : e ∈ place l entry entries) : e.1 = l ∨ ∃ e' ∈ entries, e'.1 = e.1 := by
  induction entries with
  | nil =>
    obtain rfl := List.mem_singleton.mp h
    exact .inl rfl
  | cons head rest ih =>
    obtain ⟨l', e'⟩ := head
    rw [place] at h
    split at h
    · obtain rfl | h := List.mem_cons.mp h
      · exact .inl ‹_›
      · exact .inr ⟨e, .tail _ h, rfl⟩
    · obtain rfl | h := List.mem_cons.mp h
      · exact .inr ⟨_, .head _, rfl⟩
      · obtain heq | ⟨other, hother, heq⟩ := ih h
        · exact .inl heq
        · exact .inr ⟨other, .tail _ hother, heq⟩

/-- Only what is below the root can be set. -/
theorem get?_set_eq_or (fs : FileSystem) (l l' : Location) (entry : Entry) :
    (fs.set l entry).get? l' = fs.get? l' ∨ l' = l ∧ (fs.set l entry).get? l' = some entry := by
  by_cases hroot : l' = []
  · subst hroot
    exact .inl rfl
  · rw [get?_set _ _ _ _ hroot]
    by_cases heq : l = l'
    · exact .inr ⟨heq.symm, if_pos heq⟩
    · exact .inl (if_neg heq)

theorem Plain.set (h : fs.Plain) (hl : ∀ name ∈ l, IsName name) {entry : Entry}
    (hentry : ∀ target, entry ≠ .link target) : (fs.set l entry).Plain where
  here := h.here
  names e he := by
    obtain heq | ⟨e', he', heq⟩ := of_mem_place he
    · exact heq ▸ hl
    · exact heq ▸ h.names e' he'
  links l' target := by
    obtain heq | ⟨-, heq⟩ := get?_set_eq_or fs l l' entry
    · rw [heq]
      exact h.links l' target
    · rw [heq]
      exact fun hlink => hentry target (Option.some.inj hlink)

/-- What is left when some locations are taken away. -/
theorem get?_filter (fs : FileSystem) (keep : Location → Bool) (hl : l ≠ []) :
    FileSystem.get? { fs with entries := fs.entries.filter fun e => keep e.1 } l =
      if keep l then fs.get? l else none := by
  simp only [get?, if_neg hl]
  induction fs.entries with
  | nil => simp [find?]
  | cons e rest ih =>
    obtain ⟨l', e'⟩ := e
    rw [List.filter_cons]
    by_cases heq : l' = l
    · subst heq
      cases hkeep : keep l' <;> simp_all [find?]
    · cases hkeep : keep l' <;> simp [find?, heq, ih]

theorem Plain.filter (h : fs.Plain) (keep : Location → Bool) :
    Plain { fs with entries := fs.entries.filter fun e => keep e.1 } where
  here := h.here
  names e he := h.names e (List.mem_of_mem_filter he)
  links l target := by
    by_cases hroot : l = []
    · subst hroot
      exact h.links [] target
    · rw [get?_filter fs keep hroot]
      split
      · exact h.links l target
      · simp

theorem Plain.of_loggedAt {places : List Location} (h : fs.Plain) (hlog : LoggedAt places fs fs') :
    fs'.Plain where
  here := hlog.here ▸ h.here
  names e he := by
    have hlocation : e.1 ∈ fs.entries.map (·.1) := hlog.locations ▸ List.mem_map_of_mem he
    obtain ⟨e', he', heq⟩ := List.mem_map.mp hlocation
    exact heq ▸ h.names e' he'
  links l target := by
    obtain hsame | ⟨-, mode, old, new, -, hafter⟩ := hlog.get?_eq_or l
    · rw [hsame]
      exact h.links l target
    · rw [hafter]
      simp

/-- What stands below the root is listed. -/
theorem mem_of_get? {e : Entry} (hl : l ≠ []) (h : fs.get? l = some e) : (l, e) ∈ fs.entries := by
  rw [get?, if_neg hl] at h
  generalize fs.entries = entries at h
  induction entries with
  | nil => cases h
  | cons head rest ih =>
    obtain ⟨l', e'⟩ := head
    rw [find?] at h
    split at h
    · next heq => exact heq ▸ Option.some.inj h ▸ .head _
    · exact .tail _ (ih h)

/-- Entries that are no links, under names that a directory can hold. -/
theorem plain_of_entries (hhere : ∀ name ∈ fs.here, IsName name)
    (h : ∀ e ∈ fs.entries, (∀ name ∈ e.1, IsName name) ∧ (e.2.isDirectory || e.2.isFile) = true) :
    fs.Plain where
  here := hhere
  names e he := (h e he).1
  links l target hlink := by
    by_cases hl : l = []
    · subst hl
      cases hlink
    · have hkind := (h _ (mem_of_get? hl hlink)).2
      cases hkind

/-- The names in a directory. -/
theorem isName_of_mem_names (h : ∀ e ∈ fs.entries, ∀ name ∈ e.1, IsName name) {dir : Location}
    {name : Text} (hname : name ∈ fs.names dir) : IsName name := by
  obtain ⟨e, he, hlast⟩ := List.mem_filterMap.mp hname
  split at hlast
  · exact h e he name (List.mem_of_getLast? hlast)
  · cases hlast

theorem Plain.isName_of_mem_names (h : fs.Plain) {dir : Location} {name : Text}
    (hname : name ∈ fs.names dir) : IsName name := FileSystem.isName_of_mem_names h.names hname

end Plain

/-- A place is a location with what stands there. -/
def Place.At (fs : FileSystem) (l : Location) : Place → Prop
  | .entry at_ e => at_ = l ∧ (fs.get? l).getD (.directory 0o755) = e
  | .free at_ => at_ = l ∧ fs.get? l = none

/-- Every component can be a name. -/
def Proper (names : List Text) : Prop := ∀ name ∈ names, name ≠ [] ∧ Path.slash ∉ name ∧ 0 ∉ name

section Walk

variable {fs : FileSystem} {follow : Bool} {dir : Location} {names : List Text} {place : Place}

theorem proper_components {p : Path} (hzero : 0 ∉ p) : Proper (Path.components p) := by
  intro name hname
  obtain ⟨hne, hslash, hbytes⟩ := Path.of_mem_components hname
  exact ⟨hne, hslash, fun h => hzero (hbytes 0 h)⟩

/-- A component that is looked up is a name. -/
theorem IsLookedUp.isName_below {name : Text} (h : IsLookedUp name)
    (hname : name ≠ [] ∧ Path.slash ∉ name ∧ 0 ∉ name) (hdir : ∀ other ∈ dir, IsName other) :
    ∀ other ∈ dir ++ [name], IsName other := by
  intro other hother
  obtain hother | hother := List.mem_append.mp hother
  · exact hdir other hother
  · obtain ⟨hne, hslash, hzero⟩ := hname
    rw [List.mem_singleton.mp hother]
    exact ⟨hne, hslash, hzero, h.ne_dot, h.ne_dotDot, h.length_le⟩

/-- A walk arrives where the names lead. -/
theorem place_of_walk (hnames : Proper names) (hdir : ∀ name ∈ dir, IsName name)
    (h : fs.walk follow dir names = .arrived place) :
    place.At fs (goTo dir names) ∧ ∀ name ∈ goTo dir names, IsName name := by
  rw [← goes_iff] at h
  generalize hw : Walk.arrived place = w at h
  induction h with
  | done =>
    obtain rfl := Walk.arrived.inj hw
    exact ⟨⟨rfl, rfl⟩, hdir⟩
  | stay _ ih =>
    rw [Path.goTo_dot]
    exact ih (List.forall_mem_cons.mp hnames).2 hdir hw
  | up _ ih =>
    rw [Path.goTo_dotDot]
    exact ih (List.forall_mem_cons.mp hnames).2
      (fun name hname => hdir name (List.dropLast_subset _ hname)) hw
  | free hname hget =>
    obtain rfl := Walk.arrived.inj hw
    rw [Path.goTo_down hname.ne_dot hname.ne_dotDot]
    exact ⟨⟨rfl, hget⟩, hname.isName_below (List.forall_mem_cons.mp hnames).1 hdir⟩
  | file hname hget | link hname hget =>
    obtain rfl := Walk.arrived.inj hw
    rw [Path.goTo_down hname.ne_dot hname.ne_dotDot]
    exact ⟨⟨rfl, by rw [goTo, hget]; rfl⟩,
      hname.isName_below (List.forall_mem_cons.mp hnames).1 hdir⟩
  | down hname _ _ ih =>
    obtain ⟨hfirst, hrest⟩ := List.forall_mem_cons.mp hnames
    rw [Path.goTo_down hname.ne_dot hname.ne_dotDot]
    exact ih hrest (hname.isName_below hfirst hdir) hw
  | tooLong | missing | blocked | jump => cases hw

/-- No link interrupts a walk. -/
theorem walk_ne_jump (hlinks : ∀ l target, fs.get? l ≠ some (.link target)) (dir at_ : Location)
    (names rest : List Text) (target : Text) : fs.walk follow dir names ≠ .jump at_ target rest := by
  intro hjump
  rw [← goes_iff] at hjump
  generalize hw : Walk.jump at_ target rest = w at hjump
  induction hjump with
  | jump _ hget => exact hlinks _ _ hget
  | done | tooLong | free | missing | file | blocked | link => cases hw
  | stay _ ih | up _ ih | down _ _ _ ih => exact ih hw

theorem walkLinks_eq_ok_iff (hlinks : ∀ l target, fs.get? l ≠ some (.link target)) {budget : Nat} :
    fs.walkLinks follow budget dir names = .ok place ↔
      fs.walk follow dir names = .arrived place := by
  cases hwalk : fs.walk follow dir names with
  | arrived found => simp [walkLinks.eq_def, hwalk]
  | refused e => simp [walkLinks.eq_def, hwalk]
  | jump at_ target rest => exact absurd hwalk (walk_ne_jump hlinks dir at_ names rest target)

end Walk

section Resolve

variable {fs : FileSystem} {follow : Bool} {p : Path}

/-- The names to walk are the components, and `.` behind them if the path ends in a slash. -/
theorem exists_steps_eq (p : Path) :
    ∃ more, steps p = Path.components p ++ more ∧ (more = [] ∨ more = [Path.dot]) := by
  unfold steps
  dsimp only
  split
  · exact ⟨[Path.dot], rfl, .inr rfl⟩
  · exact ⟨[], (List.append_nil _).symm, .inl rfl⟩

theorem goTo_steps (dir : Location) (p : Path) : goTo dir (steps p) = goTo dir (Path.components p) := by
  obtain ⟨more, hsteps, rfl | rfl⟩ := exists_steps_eq p
  · rw [hsteps, List.append_nil]
  · rw [hsteps, Path.goTo_append]
    rfl

theorem proper_dot : Proper [Path.dot] := by
  intro name hname
  rw [List.mem_singleton.mp hname]
  decide

theorem Proper.append {names more : List Text} (h : Proper names) (hmore : Proper more) :
    Proper (names ++ more) := by
  intro name hname
  exact (List.mem_append.mp hname).elim (h name) (hmore name)

theorem proper_steps (hzero : 0 ∉ p) : Proper (steps p) := by
  obtain ⟨more, hsteps, rfl | rfl⟩ := exists_steps_eq p
  · rw [hsteps, List.append_nil]
    exact proper_components hzero
  · rw [hsteps]
    exact (proper_components hzero).append proper_dot

/-- The last component is looked at behind the walk over the others. -/
theorem resolveLeaf_eq (hne : visible p ≠ []) (hlength : (visible p).length < maxPath)
    {last : Text} {before : List Text}
    (hcomponents : Path.components (visible p) = before ++ [last]) :
    fs.resolveLeaf p =
      match fs.walkLinks true maxLinks (Path.start fs.here (visible p)) (before ++ [Path.dot]) with
      | .error e => .error e
      | .ok (.free _) => .error .notFound
      | .ok (.entry dir _) =>
        if last = Path.dot then .ok .dot
        else if last = Path.dotDot then .ok .dotDot
        else if maxName < last.length then .error .nameTooLong
        else .ok (.name (dir ++ [last]) ((visible p).getLast? == some Path.slash)) := by
  unfold resolveLeaf
  dsimp only
  rw [if_neg hne, if_neg (Nat.not_le.mpr hlength), hcomponents, List.reverse_append,
    List.reverse_singleton, List.singleton_append]
  dsimp only
  rw [List.reverse_reverse]
  unfold Path.start
  cases fs.walkLinks true maxLinks (if Path.isAbsolute (visible p) then [] else fs.here)
      (before ++ [Path.dot]) with
  | error e => rfl
  | ok place =>
    cases place with
    | free => rfl
    | entry dir e =>
      dsimp only [bind, Except.bind, pure, Except.pure]
      split
      · rfl
      split
      · rfl
      split <;> rfl

/-- A path that is empty or too long is refused. Any other one is the root, or has a last component. -/
theorem resolveLeaf_cases (p : Path) :
    (∃ e, ∀ fs : FileSystem, ∀ follow, fs.resolve follow p = .error e ∧ fs.resolveLeaf p = .error e) ∨
      (∀ fs : FileSystem, fs.resolveLeaf p = .ok .root) ∨
      visible p ≠ [] ∧ (visible p).length < maxPath ∧
        ∃ before last, Path.components (visible p) = before ++ [last] := by
  obtain hrefused | ⟨hne, hlength⟩ := resolve_cases p
  · exact .inl hrefused
  obtain hcomponents | ⟨before, last, hcomponents⟩ :=
    List.eq_nil_or_concat (Path.components (visible p))
  · refine .inr (.inl fun fs => ?_)
    unfold resolveLeaf
    dsimp only
    rw [if_neg hne, if_neg (Nat.not_le.mpr hlength), hcomponents]
    rfl
  · exact .inr (.inr ⟨hne, hlength, before, last,
      hcomponents.trans List.concat_eq_append⟩)

/-- A last component that is a name stands behind a walk to an existing place. -/
theorem exists_enters_of_resolveLeaf {l : Location} {slashed : Bool}
    (h : fs.resolveLeaf p = .ok (.name l slashed)) :
    visible p ≠ [] ∧ (visible p).length < maxPath ∧
      ∃ last before dir e, Path.components (visible p) = before ++ [last] ∧
        fs.walkLinks true maxLinks (Path.start fs.here (visible p)) (before ++ [Path.dot]) =
          .ok (.entry dir e) ∧
        last ≠ Path.dot ∧ last ≠ Path.dotDot ∧ last.length ≤ maxName ∧ l = dir ++ [last] ∧
        slashed = ((visible p).getLast? == some Path.slash) := by
  obtain ⟨e, hrefused⟩ | hroot | ⟨hne, hlength, before, last, hcomponents⟩ := resolveLeaf_cases p
  · cases h.symm.trans (hrefused fs true).2
  · cases h.symm.trans (hroot fs)
  refine ⟨hne, hlength, ?_⟩
  rw [resolveLeaf_eq hne hlength hcomponents] at h
  split at h
  · cases h
  · cases h
  · next dir e hwalk =>
    split at h
    · cases h
    split at h
    · cases h
    split at h
    · cases h
    · next hdot hdotDot hlong =>
      cases h
      exact ⟨last, before, dir, e, hcomponents, hwalk, hdot, hdotDot, Nat.le_of_not_lt hlong,
        rfl, rfl⟩

theorem of_resolveLeaf_eq_name (hzero : 0 ∉ p) {l : Location} {slashed : Bool}
    (h : fs.resolveLeaf p = .ok (.name l slashed)) : p ≠ [] ∧ p.length < maxPath ∧
      ∃ last before dir e, Path.components p = before ++ [last] ∧
        fs.walkLinks true maxLinks (Path.start fs.here p) (before ++ [Path.dot]) =
          .ok (.entry dir e) ∧
        last ≠ Path.dot ∧ last ≠ Path.dotDot ∧ last.length ≤ maxName ∧ l = dir ++ [last] ∧
        slashed = (p.getLast? == some Path.slash) :=
  visible_eq hzero ▸ exists_enters_of_resolveLeaf h

section

variable (h : fs.Plain) (hzero : 0 ∉ p)
include h

theorem Plain.start (p : Path) : ∀ name ∈ Path.start fs.here p, IsName name := by
  unfold Path.start
  split
  · simp
  · exact h.here

include hzero

/-- A path stands for its location. -/
theorem Plain.place_of_resolve {place : Place} (hresolve : fs.resolve follow p = .ok place) :
    place.At fs (Path.location fs.here p) ∧ ∀ name ∈ Path.location fs.here p, IsName name := by
  obtain ⟨-, -, hwalk⟩ := of_resolve_eq_ok hzero hresolve
  have hplace := place_of_walk (proper_steps hzero) (h.start p)
    ((walkLinks_eq_ok_iff h.links).mp hwalk)
  rwa [goTo_steps] at hplace

theorem Plain.of_entryAt {l : Location} {e : Entry} (hentry : fs.entryAt follow p = .ok (l, e)) :
    l = Path.location fs.here p ∧ (fs.get? l).getD (.directory 0o755) = e ∧
      ∀ name ∈ l, IsName name := by
  obtain ⟨⟨rfl, hget⟩, hnames⟩ := h.place_of_resolve hzero (resolve_of_entryAt hentry)
  exact ⟨rfl, hget, hnames⟩

theorem Plain.of_status {l : Location} {e : Entry} (hstatus : fs.status p = .ok (l, e)) :
    l = Path.location fs.here p ∧ (fs.get? l).getD (.directory 0o755) = e ∧
      ∀ name ∈ l, IsName name :=
  h.of_entryAt hzero hstatus

/-- The last component stands at the location of its path. -/
theorem Plain.of_resolveLeaf {l : Location} {slashed : Bool}
    (hleaf : fs.resolveLeaf p = .ok (.name l slashed)) :
    l = Path.location fs.here p ∧ ∀ name ∈ l, IsName name := by
  obtain ⟨-, -, last, before, dir, e, hcomponents, hwalk, hdot, hdotDot, hlength, rfl, -⟩ :=
    of_resolveLeaf_eq_name hzero hleaf
  have hproper := proper_components hzero
  rw [hcomponents] at hproper
  obtain ⟨hplace, hdir⟩ := place_of_walk
    (Proper.append (fun name hname => hproper name (List.mem_append_left _ hname)) proper_dot)
    (h.start p) ((walkLinks_eq_ok_iff h.links).mp hwalk)
  have hgo : goTo (Path.start fs.here p) (before ++ [Path.dot]) =
      goTo (Path.start fs.here p) before := by
    rw [Path.goTo_append]
    rfl
  rw [hgo] at hplace hdir
  obtain ⟨rfl, -⟩ := hplace
  obtain ⟨hne, hslash, hbytes⟩ := hproper last (by simp)
  refine ⟨?_, fun name hname => ?_⟩
  · unfold Path.location
    rw [hcomponents, Path.goTo_append, goTo, if_neg hdot, if_neg hdotDot, goTo]
  · obtain hname | hname := List.mem_append.mp hname
    · exact hdir name hname
    · rw [List.mem_singleton.mp hname]
      exact ⟨hne, hslash, hbytes, hdot, hdotDot, hlength⟩

end

end Resolve

end NativeBuild.FileSystem
