import NativeBuild.Proofs.Files.Directories
import NativeBuild.Proofs.Files.Landing
import NativeBuild.Proofs.Staging.Visiting

/-!
# The trees that tasks make

Copying a directory, making it anew and copying the files of another one into it all rebuild one
tree: they say what the tree is afterwards, and outside of it nothing becomes of the files but
that directories are made on the way to it and that logs are written.
-/
namespace NativeBuild

open FileSystem
open NativeBuild.Path (IsName)

/-- What may become of an entry outside of the trees that are rebuilt. -/
inductive Beside (onWay isLog : Prop) (before after : Option Entry) : Prop
  | same (h : after = before)
  /-- A directory is made on the way to a tree. -/
  | made (hway : onWay) (hbefore : before = none)
      (hafter : after = some (.directory (FileAction.maskedMode 0o777)))
  /-- A log is written. -/
  | logged (hlog : isLog) {mode : Nat} {old new : Text}
      (hbefore : before = some (.file mode old)) (hafter : after = some (.file mode new))

section Beside

variable {onWay onWay' isLog : Prop} {e e' e'' : Option Entry}

theorem Beside.trans (h : Beside onWay isLog e e') (h' : Beside onWay isLog e' e'') :
    Beside onWay isLog e e'' := by
  cases h with
  | same heq => exact heq ▸ h'
  | made hway hbefore hafter =>
    cases h' with
    | same heq => exact .made hway hbefore (heq.trans hafter)
    | made _ hnone _ => cases hafter.symm.trans hnone
    | logged _ hfile _ => cases hafter.symm.trans hfile
  | logged hlog hbefore hafter =>
    cases h' with
    | same heq => exact .logged hlog hbefore (heq.trans hafter)
    | made _ hnone _ => cases hafter.symm.trans hnone
    | logged _ hfile hlater =>
      cases hafter.symm.trans hfile
      exact .logged hlog hbefore hlater

theorem Beside.mono (h : Beside onWay isLog e e') (hway : onWay → onWay') :
    Beside onWay' isLog e e' := by
  cases h with
  | same heq => exact .same heq
  | made hmade hbefore hafter => exact .made (hway hmade) hbefore hafter
  | logged hlog hbefore hafter => exact .logged hlog hbefore hafter

/-- What is neither on the way to a tree nor a log stays. -/
theorem Beside.eq (h : Beside onWay isLog e e') (hway : ¬ onWay) (hlog : ¬ isLog) : e' = e := by
  cases h with
  | same heq => exact heq
  | made hmade _ _ => exact absurd hmade hway
  | logged hlogged _ _ => exact absurd hlogged hlog

/-- Directories stay. -/
theorem Beside.directory (h : Beside onWay isLog e e') (he : e.any Entry.isDirectory = true) :
    e'.any Entry.isDirectory = true := by
  cases h with
  | same heq => exact heq ▸ he
  | made _ hbefore _ => rw [hbefore] at he; cases he
  | logged _ hbefore _ => rw [hbefore] at he; cases he

end Beside

/-- Anything may become of a tree, and outside of it only what happens beside. -/
def Policy.rebuilding (start : FileSystem) (places : List Location) (at_ : Location) : Policy where
  start
  places
  may l e e' := ¬ at_ <+: l → Beside (l <+: at_) (l ∈ places) e e'
  refl _ _ _ := .same rfl
  trans _ _ _ _ h h' hl := (h hl).trans (h' hl)
  logs _ hl _ _ _ _ := .logged hl rfl rfl

theorem Policy.freeBelow_rebuilding (start : FileSystem) (places : List Location) (at_ : Location) :
    (Policy.rebuilding start places at_).FreeBelow at_ := fun _ hl _ _ hnot => absurd hl hnot

/-- A path may lead over directories that are there, and leave them again. -/
theorem Policy.mayReach_rebuilding (places : List Location) (at_ : Location) {start : FileSystem}
    {back : List Location} (hback : ∀ l ∈ back, start.directoryAt l = true) :
    Staging.MayReach (Policy.rebuilding start places at_) at_ back := by
  rintro l (hl | hl) fs hfs hfree hnot
  · exact .made hl rfl rfl
  · have hthere := (hfs.may l hnot).directory (hback l hl)
    rw [hfree] at hthere
    cases hthere

/-- A task has rebuilt a tree. -/
structure Session.Rebuilds (s after : Session) (at_ : Location) (new : View) : Prop where
  keeps : (Policy.rebuilding s.files s.logPlaces at_).HoldsIn after
  inside : after.files.view at_ = new

namespace Session.Rebuilds

variable {s after : Session} {at_ l : Location} {new : View} (h : s.Rebuilds after at_ new)
include h

theorem plain : after.files.Plain := h.keeps.files.plain

theorem here : after.files.here = s.files.here := h.keeps.files.here

theorem logPlaces : after.logPlaces = s.logPlaces := h.keeps.logPlaces

theorem beside (hl : ¬ at_ <+: l) :
    Beside (l <+: at_) (l ∈ s.logPlaces) (s.files.get? l) (after.files.get? l) :=
  h.keeps.files.may l hl

/-- What is neither in the tree nor on the way to it stays. -/
theorem get?_eq (hl : Apart at_ l) (hlog : l ∉ s.logPlaces) :
    after.files.get? l = s.files.get? l := (h.beside hl.1).eq hl.2 hlog

theorem view_eq (hl : Apart at_ l) (hlog : ∀ l' ∈ s.logPlaces, ¬ l <+: l') :
    after.files.view l = s.files.view l :=
  view_congr fun l' hl' => h.get?_eq (hl.mono List.prefix_rfl hl') fun hplace => hlog l' hplace hl'

/-- Directories outside of the tree stay. -/
theorem directoryAt (hl : ¬ at_ <+: l) (hdirectory : s.files.directoryAt l = true) :
    after.files.directoryAt l = true := (h.beside hl).directory hdirectory

end Session.Rebuilds

/-- A task that changes nothing has rebuilt a tree as it was. -/
theorem Session.Rebuilds.refl {s : Session} (h : s.files.Plain) (at_ : Location) :
    s.Rebuilds s at_ (s.files.view at_) := ⟨⟨⟨h, rfl, fun _ _ => .same rfl⟩, rfl⟩, rfl⟩

/-- A tree that is rebuilt twice. -/
theorem Session.Rebuilds.trans {s s' s'' : Session} {at_ : Location} {old new : View}
    (h : s.Rebuilds s' at_ old) (h' : s'.Rebuilds s'' at_ new) : s.Rebuilds s'' at_ new where
  keeps := ⟨⟨h'.plain, h'.here.trans h.here, fun _ hl =>
    (h.beside hl).trans (h.logPlaces ▸ h'.beside hl)⟩, h'.logPlaces.trans h.logPlaces⟩
  inside := h'.inside

/-- A tree is laid at a path: it is found there, and no directory is lost. -/
structure Session.Lays (s after : Session) (target : Path) (at_ : Location) (new : View) : Prop extends
    s.Rebuilds after at_ new where
  found : after.files.isDirectory target = true
  kept : ∀ l, s.files.directoryAt l = true → after.files.directoryAt l = true

/-- Nothing becomes of the files outside of some trees but what happens beside. -/
structure Session.Confined (roots : Location → Prop) (s after : Session) : Prop where
  plain : after.files.Plain
  here : after.files.here = s.files.here
  logPlaces : after.logPlaces = s.logPlaces
  beside : ∀ l, (∀ root, roots root → ¬ root <+: l) →
    Beside (∃ root, roots root ∧ l <+: root) (l ∈ s.logPlaces) (s.files.get? l) (after.files.get? l)

section Confined

variable {roots : Location → Prop} {s s' s'' : Session} {at_ l : Location} {new : View}

theorem Session.Confined.refl (h : s.files.Plain) : s.Confined roots s :=
  ⟨h, rfl, rfl, fun _ _ => .same rfl⟩

theorem Session.Confined.trans (h : s.Confined roots s') (h' : s'.Confined roots s'') :
    s.Confined roots s'' where
  plain := h'.plain
  here := h'.here.trans h.here
  logPlaces := h'.logPlaces.trans h.logPlaces
  beside l hl := (h.beside l hl).trans (h.logPlaces ▸ h'.beside l hl)

theorem Session.Rebuilds.confined (h : s.Rebuilds s' at_ new) (hroot : roots at_) :
    s.Confined roots s' :=
  ⟨h.plain, h.here, h.logPlaces, fun _ hl => (h.beside (hl at_ hroot)).mono fun hway => ⟨_, hroot, hway⟩⟩

theorem Session.LoggedFrom.confined (h : LoggedFrom s s') (hplain : s.files.Plain) :
    s.Confined roots s' where
  plain := hplain.of_loggedAt h.files
  here := h.files.here
  logPlaces := h.logPlaces
  beside l _ := by
    obtain hsame | ⟨hl, mode, old, new, hbefore, hafter⟩ := h.files.get?_eq_or l
    · exact .same hsame
    · exact .logged hl hbefore hafter

theorem Session.Confined.mono {roots' : Location → Prop} (h : s.Confined roots s')
    (hroots : ∀ root, roots root → roots' root) : s.Confined roots' s' :=
  ⟨h.plain, h.here, h.logPlaces, fun l hl =>
    (h.beside l fun root hroot => hl root (hroots root hroot)).mono fun ⟨root, hroot, hin⟩ =>
      ⟨root, hroots root hroot, hin⟩⟩

/-- A tree apart from the others stays. -/
theorem Session.Confined.view_eq (h : s.Confined roots s') (hl : ∀ root, roots root → Apart root l)
    (hlog : ∀ l' ∈ s.logPlaces, ¬ l <+: l') : s'.files.view l = s.files.view l :=
  view_congr fun l' hl' => (h.beside l' fun root hroot hin => (hl root hroot).not_both hin hl').eq
    (fun ⟨root, hroot, hway⟩ => (hl root hroot).2 (hl'.trans hway)) fun hplace => hlog l' hplace hl'

/-- Directories outside of the trees stay. -/
theorem Session.Confined.directoryAt (h : s.Confined roots s')
    (hl : ∀ root, roots root → ¬ root <+: l) (hdirectory : s.files.directoryAt l = true) :
    s'.files.directoryAt l = true := (h.beside l hl).directory hdirectory

/-- Nothing becomes of the files but that logs are written. -/
def Session.Alike (s s' : Session) : Prop := s.Confined (fun _ => False) s'

theorem Session.Alike.get?_eq (h : s.Alike s') (hl : l ∉ s.logPlaces) :
    s'.files.get? l = s.files.get? l := (h.beside l (by simp)).eq (by simp) hl

/-- A tree that is rebuilt as it was, in a place that is there. -/
theorem Session.Rebuilds.alike (h : s.Rebuilds s' at_ (s.files.view at_))
    (hway : ∀ l, l <+: at_ → ¬ at_ <+: l → s.files.directoryAt l = true) : s.Alike s' := by
  refine ⟨h.plain, h.here, h.logPlaces, fun l _ => ?_⟩
  by_cases hin : at_ <+: l
  · obtain ⟨rel, rfl⟩ := hin
    exact .same (congrFun h.inside rel)
  · cases h.beside hin with
    | same heq => exact .same heq
    | made hl hnone _ =>
      obtain ⟨mode, hget⟩ := directoryAt_iff.mp (hway l hl hin)
      cases hnone.symm.trans hget
    | logged hlog hbefore hafter => exact .logged hlog hbefore hafter

end Confined

namespace FileSystem

/-- A tree whose root has been made a directory, if nothing was there. -/
def View.entered (v : View) : View := fun rel =>
  if rel = [] then some ((v []).getD (.directory (FileAction.maskedMode 0o777))) else v rel

/-- No file comes or goes when a tree is entered. -/
theorem View.fileOf_entered (v : View) (rel : Location) : fileOf (v.entered rel) = fileOf (v rel) := by
  unfold entered
  split
  · next hrel =>
    rw [hrel]
    cases v [] <;> rfl
  · rfl

/-- A tree that is there can be entered as it is. -/
theorem View.entered_eq {v : View} (h : v [] ≠ none) : v.entered = v := by
  obtain ⟨entry, hget⟩ := Option.ne_none_iff_exists'.mp h
  funext rel
  unfold entered
  split
  · next hrel => rw [hrel, hget, Option.getD_some]
  · rfl

/-- An empty directory. -/
def View.fresh : View := View.entered fun _ => none

/-- A directory that is laid over an empty one is copied as it is, below its root. -/
theorem View.overlay_fresh {new : View} (hclosed : new.Closed) (hroot : new.directoryAt [] = true)
    (name : Text) (rel : Location) : View.overlay name new View.fresh rel =
      if rel = [] then View.fresh [] else (new rel).map Entry.copied := by
  cases rel with
  | nil =>
    obtain ⟨mode, hlaid⟩ := (View.overlay_of_directory hroot name View.fresh).1
    exact hlaid
  | cons next rest =>
    refine (congrFun ((View.overlay_of_directory hroot name View.fresh).2 next) rest).trans ?_
    exact View.overlay_empty (hclosed.under next) next rest

theorem Plain.entered_view {fs : FileSystem} {q : Path} {name : Text} (h : fs.Plain) (hzero : 0 ∉ q)
    (hname : IsName name) (hfound : fs.isDirectory (Path.join q name) = true) :
    (fs.view (Path.location fs.here q ++ [name])).entered =
      fs.view (Path.location fs.here q ++ [name]) := by
  obtain ⟨-, -, hdirectory⟩ := (h.isDirectory_join_iff hzero hname).mp hfound
  obtain ⟨mode, hget⟩ := directoryAt_iff.mp hdirectory
  exact View.entered_eq (by rw [view_nil, hget]; simp)

theorem Makes.view_eq {fs fs' : FileSystem} {q : Path} {name : Text}
    (h : Makes fs fs' (Path.join q name)) (hzero : 0 ∉ q) (hname : IsName name) :
    fs'.view (Path.location fs.here q ++ [name]) =
      (fs.view (Path.location fs.here q ++ [name])).entered := by
  obtain ⟨-, -, hdirectory⟩ := (h.plain.isDirectory_join_iff hzero hname).mp h.directory
  obtain ⟨mode, hget⟩ := directoryAt_iff.mp hdirectory
  rw [h.here] at hget
  have houtside := h.outside
  rw [Path.location_join hname] at houtside
  funext rel
  unfold View.entered
  split
  · next hroot =>
    rw [hroot, view_nil, view_nil]
    obtain hsame | ⟨-, hnone, hmade⟩ := houtside (Path.location fs.here q ++ [name])
    · rw [hsame] at hget ⊢
      rw [hget, Option.getD_some]
    · rw [hnone, hmade, Option.getD_none]
  · next hne =>
    refine (houtside _).resolve_right fun ⟨hway, _⟩ => hne ?_
    exact List.append_right_eq_self.mp (hway.eq_of_length_le (by simp))

/-- What lies apart from a path stays when the path is made. -/
theorem Makes.view_eq_of_apart {fs fs' : FileSystem} {p : Path} {l : Location} (h : Makes fs fs' p)
    (hl : Apart (Path.location fs.here p) l) : fs'.view l = fs.view l :=
  view_congr fun l' hl' => (h.outside l').resolve_right fun ⟨hway, _⟩ => hl.2 (hl'.trans hway)

end FileSystem

/-- Nothing may change but the files directly in a directory, and logs, and they stay files. -/
def Policy.touching (start : FileSystem) (places : List Location) (at_ : Location) : Policy where
  start
  places
  may l e e' := e' = e ∨ (l ∈ places ∨ ∃ name, l = at_ ++ [name]) ∧
    e.any Entry.isFile = true ∧ e'.any Entry.isFile = true
  refl _ _ := .inl rfl
  trans l e e' e'' h h' := by
    obtain rfl | ⟨hl, he, he'⟩ := h
    · exact h'
    · obtain rfl | ⟨-, -, he''⟩ := h'
      · exact .inr ⟨hl, he, he'⟩
      · exact .inr ⟨hl, he, he''⟩
  logs l hl _ _ _ := .inr ⟨.inl hl, rfl, rfl⟩

section Touching

variable {start fs : FileSystem} {places : List Location} {at_ l : Location}
  (h : (Policy.touching start places at_).Holds fs)
include h

theorem Policy.directoryAt_touching : fs.directoryAt l = start.directoryAt l := by
  unfold directoryAt
  obtain hsame | ⟨-, hbefore, hafter⟩ := h.may l
  · exact congrArg _ hsame
  · exact (not_directory_of_file hafter).trans (not_directory_of_file hbefore).symm

theorem Policy.isSome_touching : (fs.get? l).isSome = (start.get? l).isSome := by
  obtain hsame | ⟨-, hbefore, hafter⟩ := h.may l
  · exact congrArg _ hsame
  · change Option.any Entry.isFile (start.get? l) = true at hbefore
    rw [Option.isSome_of_any hbefore, Option.isSome_of_any hafter]

end Touching

namespace Staging

section Recreate

variable {s after : Session} {q : Path} {name : Text} (h : s.files.Plain) (hzero : 0 ∉ q)
  (hname : IsName name)
include h hzero hname

/-- The files directly in a directory can be made writable if their paths are not too long. -/
theorem allowWriting_succeeds (hthere : s.files.isDirectory (Path.join q name) = true)
    (hnames : ∀ file, s.files.get? (Path.location s.files.here q ++ [name] ++ [file]) ≠ none →
      (Path.join (Path.join q name) file).length < maxPath) :
    ∃ after, ((allowWriting (Path.join q name)).run s).run = (.ok (), after) := by
  obtain ⟨hq, hshort, hdirectory⟩ := (h.isDirectory_join_iff hzero hname).mp hthere
  have hdir : s.files.Reaches (Path.join q name) := (reaches_join hname).mpr ⟨hq, hdirectory⟩
  let π := Policy.touching s.files s.logPlaces (Path.location s.files.here q ++ [name])
  have hfound : ∀ file ∈ s.files.names (Path.location s.files.here q ++ [name]), ∀ between,
      π.HoldsIn between →
      ∃ found, between.files.status (Path.join (Path.join q name) file) = .ok found := by
    intro file hfile between hbetween
    have hreaches := hdir.mono hbetween.files.here fun l _ hl =>
      (Policy.directoryAt_touching hbetween.files).trans hl
    obtain ⟨entry, hget⟩ := mem_names_iff.mp hfile
    have hsome : (between.files.get? (Path.location s.files.here q ++ [name] ++ [file])).isSome =
        (s.files.get? _).isSome := Policy.isSome_touching hbetween.files
    rw [hget] at hsome
    obtain ⟨entry', hget'⟩ := Option.isSome_iff_exists.mp hsome
    have hstatus := hbetween.files.plain.status_join hreaches (h.isName_of_mem_names hfile)
    have hhere : between.files.here = s.files.here := hbetween.files.here
    rw [if_neg (Nat.not_le.mpr (hnames file (by rw [hget]; simp))), hhere, Path.location_join hname,
      hget'] at hstatus
    exact ⟨_, hstatus⟩
  have hmade : ∀ file ∈ s.files.names (Path.location s.files.here q ++ [name]),
      ∀ between l mode content, π.HoldsIn between →
      between.files.status (Path.join (Path.join q name) file) = .ok (l, .file mode content) →
      ∃ after, ((attempt "cannot make writable" (Path.join (Path.join q name) file)
        (FileAction.allowWriting (Path.join (Path.join q name) file))).run between).run =
          (.ok (), after) ∧ π.HoldsIn after := by
    intro file hfile between l mode content hbetween hstatus
    have hchild := ((Path.leads s.files.here hzero).join hname).join (h.isName_of_mem_names hfile)
    have hkept := @preservesFrom_attempt _ _ _ (Path.join (Path.join q name) file)
      "cannot make writable" _ hbetween
      (FileAction.preservesFrom_allowWriting hchild.zero (by
        rw [show Path.location π.start.here _ = _ from hchild.location]
        exact fun _ _ _ => .inr ⟨.inr ⟨file, rfl⟩, rfl, rfl⟩) hbetween.files hstatus)
    have hrun := run_attempt "cannot make writable" (Path.join (Path.join q name) file)
      (FileAction.allowWriting (Path.join (Path.join q name) file)) between
    rw [FileAction.run_allowWriting hstatus] at hrun
    exact ⟨_, hrun, hkept.of_run hrun⟩
  unfold allowWriting
  rw [run_get_bind, if_pos hthere]
  obtain ⟨after, hrun, -⟩ := forFiles_succeeds (h.list_join hq hname hshort hdirectory) hfound hmade
    (⟨⟨h, rfl, fun _ => .inl rfl⟩, rfl⟩ : π.HoldsIn s)
  exact ⟨after, hrun⟩

/-- Making files writable loses nothing. -/
theorem touched_of_allowWriting
    (hrun : ((allowWriting (Path.join q name)).run s).run = (.ok (), after)) :
    (Policy.touching s.files s.logPlaces (Path.location s.files.here q ++ [name])).HoldsIn after := by
  have hafter := preserves_allowWriting ((Path.leads s.files.here hzero).join hname)
    (π := Policy.touching s.files s.logPlaces (Path.location s.files.here q ++ [name]))
    (fun file _ _ _ _ => .inr ⟨.inr ⟨file, rfl⟩, rfl, rfl⟩) s ⟨⟨h, rfl, fun _ => .inl rfl⟩, rfl⟩
  exact hafter.of_run hrun

omit h hzero in
/-- What is there when its files have been made writable can be removed. -/
theorem removed_of_touched {touched : Session} {entry : Entry} (hq : s.files.Reaches q)
    (hshort : (Path.join q name).length < maxPath)
    (hback : ∀ l ∈ Path.left s.files.here q, ¬ Path.location s.files.here q ++ [name] <+: l)
    (htouched : (Policy.touching s.files s.logPlaces
      (Path.location s.files.here q ++ [name])).HoldsIn touched)
    (hget : s.files.get? (Path.location s.files.here q ++ [name]) = some entry) :
    ∃ files, ((FileAction.removeAll (Path.join q name)).run touched.files).run = (.ok (), files) ∧
      files.Plain ∧ files.here = s.files.here ∧
      (∀ l, Path.location s.files.here q ++ [name] <+: l → files.get? l = none) ∧
      ∀ l, ¬ Path.location s.files.here q ++ [name] <+: l → s.files.directoryAt l = true →
        files.directoryAt l = true := by
  have hhere : touched.files.here = s.files.here := htouched.files.here
  have hkeep : ∀ l, s.files.directoryAt l = true → touched.files.directoryAt l = true := fun l hl =>
    (Policy.directoryAt_touching htouched.files).trans hl
  have hsome : (touched.files.get? (Path.location s.files.here q ++ [name])).isSome =
      (s.files.get? _).isSome := Policy.isSome_touching htouched.files
  rw [hget] at hsome
  obtain ⟨entry', hthere⟩ := Option.isSome_iff_exists.mp hsome
  obtain ⟨files, hrun, hplain, hhere', hgone⟩ := FileAction.run_removeAll htouched.files.plain
    (hq.mono hhere fun l _ => hkeep l) hname hshort (hhere ▸ hback) (hhere ▸ hthere)
  rw [hhere] at hgone
  refine ⟨files, hrun, hplain, hhere'.trans hhere, fun l hl => ?_, fun l hl hdirectory => ?_⟩
  · rw [hgone l, if_pos hl]
    rintro rfl
    simp at hl
  · by_cases hroot : l = []
    · subst hroot
      exact hdirectory
    · have hkept := hkeep l hdirectory
      unfold directoryAt at hkept ⊢
      rwa [hgone l hroot, if_neg hl]

/-- A directory is made with those that it is in. -/
theorem makes_of_ensureDirectory
    (hleft : ∀ l ∈ Path.left s.files.here q, s.files.directoryAt l = true)
    (hrun : ((ensureDirectory (Path.join q name)).run s).run = (.ok (), after)) :
    ∃ files, Makes s.files files (Path.join q name) ∧ after = { s with files } := by
  obtain ⟨files, hmake, heq⟩ := of_run_attempt hrun
  exact ⟨files, FileAction.makes_of_makeDirectories h hzero hname hleft hmake, heq⟩

/-- A directory that is made where nothing was is empty. -/
theorem view_of_ensureDirectory
    (hleft : ∀ l ∈ Path.left s.files.here q, s.files.directoryAt l = true)
    (hnone : ∀ l, Path.location s.files.here q ++ [name] <+: l → s.files.get? l = none)
    (hrun : ((ensureDirectory (Path.join q name)).run s).run = (.ok (), after)) :
    after.files.view (Path.location s.files.here q ++ [name]) = View.fresh := by
  obtain ⟨files, hmakes, rfl⟩ := makes_of_ensureDirectory h hzero hname hleft hrun
  rw [hmakes.view_eq hzero hname]
  exact congrArg View.entered (funext fun rel => hnone _ (List.prefix_append _ rel))

/-- Where a directory is made, a place that can be looked up and is not found is free. -/
theorem get?_of_not_doesExist
    (hleft : ∀ l ∈ Path.left s.files.here q, s.files.directoryAt l = true)
    (hstands : s.files.get? (Path.location s.files.here q ++ [name]) ≠ none → s.files.Reaches q)
    (hexists : ¬ s.files.doesExist (Path.join q name) = true)
    (hrun : ((ensureDirectory (Path.join q name)).run s).run = (.ok (), after)) :
    s.files.get? (Path.location s.files.here q ++ [name]) = none := by
  by_contra hsome
  obtain ⟨entry, hget⟩ := Option.ne_none_iff_exists'.mp hsome
  obtain ⟨files, hmakes, -⟩ := makes_of_ensureDirectory h hzero hname hleft hrun
  obtain ⟨-, hshort, -⟩ := (hmakes.plain.isDirectory_join_iff hzero hname).mp hmakes.directory
  refine hexists ?_
  unfold doesExist
  rw [h.status_join (hstands hsome) hname, if_neg (Nat.not_le.mpr hshort), hget]
  rfl

/-- A directory is made anew where all that was there is gone. -/
theorem of_recreate
    (hback : ∀ l ∈ Path.left s.files.here q, s.files.directoryAt l = true ∧
      ¬ Path.location s.files.here q ++ [name] <+: l)
    (hstands : s.files.get? (Path.location s.files.here q ++ [name]) ≠ none → s.files.Reaches q)
    (hnothing : s.files.get? (Path.location s.files.here q ++ [name]) = none →
      ∀ l, Path.location s.files.here q ++ [name] <+: l → s.files.get? l = none)
    (hrun : ((recreate (Path.join q name)).run s).run = (.ok (), after)) :
    ∃ between, between.files.Plain ∧ between.files.here = s.files.here ∧
      (∀ l, Path.location s.files.here q ++ [name] <+: l → between.files.get? l = none) ∧
      (∀ l ∈ Path.left s.files.here q, between.files.directoryAt l = true) ∧
      ((ensureDirectory (Path.join q name)).run between).run = (.ok (), after) := by
  unfold recreate at hrun
  rw [run_get_bind] at hrun
  by_cases hexists : s.files.doesExist (Path.join q name) = true
  · rw [if_pos hexists] at hrun
    obtain ⟨⟨⟩, touched, htouch, hrun⟩ := of_run_bind hrun
    obtain ⟨⟨⟩, removed, hremove, hmake⟩ := of_run_bind hrun
    obtain ⟨hq, hshort, entry, hget⟩ := h.of_doesExist_join hzero hname hexists
    have htouched := touched_of_allowWriting h hzero hname htouch
    obtain ⟨files, hremoved, hplain, hhere, hgone, hkept⟩ :=
      removed_of_touched hname hq hshort (fun l hl => (hback l hl).2) htouched hget
    obtain ⟨files', hremove', rfl⟩ := of_run_attempt hremove
    obtain ⟨-, rfl⟩ := Prod.mk.inj (hremoved.symm.trans hremove')
    exact ⟨_, hplain, hhere, hgone, fun l hl => hkept l (hback l hl).2 (hback l hl).1, hmake⟩
  · rw [if_neg hexists] at hrun
    have hleft : ∀ l ∈ Path.left s.files.here q, s.files.directoryAt l = true :=
      fun l hl => (hback l hl).1
    exact ⟨s, h, rfl, hnothing (get?_of_not_doesExist h hzero hname hleft hstands hexists hrun),
      hleft, hrun⟩

/-- A directory made anew is empty. If nothing was there, nothing was below it either. -/
theorem rebuilds_of_recreate
    (hback : ∀ l ∈ Path.left s.files.here q, s.files.directoryAt l = true ∧
      ¬ Path.location s.files.here q ++ [name] <+: l)
    (hstands : s.files.get? (Path.location s.files.here q ++ [name]) ≠ none → s.files.Reaches q)
    (hnothing : s.files.get? (Path.location s.files.here q ++ [name]) = none →
      ∀ l, Path.location s.files.here q ++ [name] <+: l → s.files.get? l = none)
    (hrun : ((recreate (Path.join q name)).run s).run = (.ok (), after)) :
    s.Rebuilds after (Path.location s.files.here q ++ [name]) View.fresh := by
  have hkeeps := preserves_recreate ((Path.leads s.files.here hzero).join hname)
    (Policy.freeBelow_rebuilding s.files s.logPlaces _)
    (Policy.mayReach_rebuilding s.logPlaces _ fun l hl => (hback l hl).1) s
    ⟨⟨h, rfl, fun _ _ => .same rfl⟩, rfl⟩
  obtain ⟨between, hplain, hhere, hgone, hleft, hmake⟩ :=
    of_recreate h hzero hname hback hstands hnothing hrun
  refine ⟨hkeeps.of_run hrun, ?_⟩
  rw [← hhere] at hleft hgone ⊢
  exact view_of_ensureDirectory hplain hzero hname hleft hgone hmake

/-- A directory made anew is found. -/
theorem found_of_recreate
    (hback : ∀ l ∈ Path.left s.files.here q, s.files.directoryAt l = true ∧
      ¬ Path.location s.files.here q ++ [name] <+: l)
    (hstands : s.files.get? (Path.location s.files.here q ++ [name]) ≠ none → s.files.Reaches q)
    (hnothing : s.files.get? (Path.location s.files.here q ++ [name]) = none →
      ∀ l, Path.location s.files.here q ++ [name] <+: l → s.files.get? l = none)
    (hrun : ((recreate (Path.join q name)).run s).run = (.ok (), after)) :
    after.files.isDirectory (Path.join q name) = true := by
  obtain ⟨between, hplain, hhere, -, hleft, hmake⟩ :=
    of_recreate h hzero hname hback hstands hnothing hrun
  rw [← hhere] at hleft
  obtain ⟨files, hmakes, rfl⟩ := makes_of_ensureDirectory hplain hzero hname hleft hmake
  exact hmakes.directory

/-- A directory that is there can be made anew if the directory that it is in is found, and the
paths of the files directly in it are not too long. -/
theorem recreate_succeeds (hthere : s.files.isDirectory (Path.join q name) = true)
    (hin : s.files.directoryAt (Path.location s.files.here q) = true)
    (hback : ∀ l ∈ Path.left s.files.here q, ¬ Path.location s.files.here q ++ [name] <+: l)
    (hnames : ∀ file, s.files.get? (Path.location s.files.here q ++ [name] ++ [file]) ≠ none →
      (Path.join (Path.join q name) file).length < maxPath) :
    ∃ after, ((recreate (Path.join q name)).run s).run = (.ok (), after) := by
  obtain ⟨hq, hshort, hdirectory⟩ := (h.isDirectory_join_iff hzero hname).mp hthere
  obtain ⟨mode, hget⟩ := directoryAt_iff.mp hdirectory
  have hexists : s.files.doesExist (Path.join q name) = true := by
    unfold doesExist
    rw [h.status_join hq hname, if_neg (Nat.not_le.mpr hshort), hget]
    rfl
  obtain ⟨touched, htouch⟩ := allowWriting_succeeds h hzero hname hthere hnames
  obtain ⟨files, hremove, hplain, hhere, hgone, hkept⟩ := removed_of_touched hname hq hshort
    hback (touched_of_allowWriting h hzero hname htouch) hget
  have hway : ∀ l, l <+: Path.location s.files.here q ∨ l ∈ Path.left s.files.here q →
      ¬ Path.location s.files.here q ++ [name] <+: l := by
    rintro l (hl | hl)
    · exact fun hbelow => not_name_isPrefix _ name (hbelow.trans hl)
    · exact hback l hl
  have hmake := FileAction.run_makeDirectories_join hplain
    (hq.mono hhere fun l hl => hkept l (hway l hl)) hname hshort
    (by rw [hhere]; exact hkept _ (hway _ (.inl List.prefix_rfl)) hin)
    (by rw [hhere]; exact hgone _ List.prefix_rfl)
  unfold recreate
  rw [run_get_bind, if_pos hexists, run_bind, htouch]
  dsimp only
  rw [run_bind, run_attempt, hremove]
  dsimp only
  unfold ensureDirectory
  rw [run_attempt, hmake]
  exact ⟨_, rfl⟩

end Recreate

section CopyTree

variable {s after : Session} {p q : Path} {name other : Text} (h : s.files.Plain) (hzero : 0 ∉ p)
  (hzero' : 0 ∉ q) (hname : IsName name) (hother : IsName other)
  (hapart : Apart (Path.location s.files.here p ++ [name]) (Path.location s.files.here q ++ [other]))
include h hzero hzero' hname hother hapart

omit hzero hname hapart in
/-- A copy makes its target, copies the tree and logs that it has. -/
theorem of_copyTree (hback : ∀ l ∈ Path.left s.files.here q, s.files.directoryAt l = true)
    (hrun : ((copyTree (Path.join p name) (Path.join q other) true).run s).run = (.ok (), after)) :
    s.files.isDirectory (Path.join p name) = true ∧
    ∃ files copied, Makes s.files files (Path.join q other) ∧
      ((FileAction.copy (Path.join p name) (Path.join q other) true).run files).run =
        (.ok (), copied) ∧
      Session.LoggedFrom { s with files := copied } after := by
  unfold copyTree at hrun
  rw [run_get_bind] at hrun
  split at hrun
  swap
  · cases congrArg Prod.fst hrun
  next hsource =>
  obtain ⟨⟨⟩, made, hmake, hrun⟩ := of_run_bind hrun
  obtain ⟨files, hmakes, rfl⟩ := makes_of_ensureDirectory h hzero' hother hback hmake
  obtain ⟨result, copied, hact, hrun⟩ := of_run_bind hrun
  rw [run_act] at hact
  obtain ⟨hresult, rfl⟩ := Prod.mk.inj hact
  obtain rfl := Except.ok.inj hresult
  dsimp only at hrun
  cases hcopy : ((FileAction.copy (Path.join p name) (Path.join q other) true).run files).run with
  | mk result copied =>
    rw [hcopy] at hrun
    cases result with
    | error e => cases congrArg Prod.fst hrun
    | ok =>
      obtain rfl : _ = after := congrArg Prod.snd hrun
      exact ⟨hsource, files, copied, hmakes, hcopy, Session.loggedFrom_log .debug (utf8 "staging")
        (utf8 "Copied " ++ Path.join p name ++ utf8 " -> " ++ Path.join q other) _⟩

/-- A directory that has been copied lies over what was there. -/
theorem lays_of_copyTree (hback : ∀ l ∈ Path.left s.files.here q, s.files.directoryAt l = true)
    (hlogs : ∀ l ∈ s.logPlaces, ¬ Path.location s.files.here q ++ [other] <+: l)
    (hrun : ((copyTree (Path.join p name) (Path.join q other) true).run s).run = (.ok (), after)) :
    s.files.isDirectory (Path.join p name) = true ∧
    View.Fits (Path.join p name) (Path.join q other) name
      (s.files.view (Path.location s.files.here p ++ [name]))
      (s.files.view (Path.location s.files.here q ++ [other])).entered ∧
    s.Lays after (Path.join q other) (Path.location s.files.here q ++ [other])
      (View.overlay name (s.files.view (Path.location s.files.here p ++ [name]))
        (s.files.view (Path.location s.files.here q ++ [other])).entered) := by
  have hfileName : IsName (Path.fileName (Path.join p name)) := by
    rw [Path.fileName_join hname.slash]
    exact hname
  have hkeeps := preserves_copyTree hfileName ((Path.leads s.files.here hzero').join hother)
    (Policy.freeBelow_rebuilding s.files s.logPlaces _)
    (Policy.mayReach_rebuilding s.logPlaces _ hback) true s
    ⟨⟨h, rfl, fun _ _ => .same rfl⟩, rfl⟩
  obtain ⟨hsource, files, copied, hmakes, hcopy, hlogged⟩ := of_copyTree h hzero' hother hback hrun
  obtain ⟨hsourceReaches, -, -⟩ := (h.isDirectory_join_iff hzero hname).mp hsource
  obtain ⟨htargetReaches, -, -⟩ :=
    (hmakes.plain.isDirectory_join_iff hzero' hother).mp hmakes.directory
  obtain ⟨hfits, hreplaces⟩ := FileAction.copiesRight maxPath files copied p q name other
    hmakes.plain (hsourceReaches.mono hmakes.here fun l _ => hmakes.directoryAt) htargetReaches
    hname hother (hmakes.here ▸ hapart) hcopy
  have hconfined := @Session.LoggedFrom.confined (fun _ => False) _ _ hlogged hreplaces.plain
  have hkept : ∀ l, files.directoryAt l = true → after.files.directoryAt l = true := fun l hl =>
    hconfined.directoryAt (fun _ hnone => hnone.elim) (hreplaces.directoryAt hfits hl)
  have hfound := hmakes.plain.isDirectory_mono hconfined.plain hzero' hother
    (hconfined.here.trans hreplaces.here) (fun l _ => hkept l) hmakes.directory
  rw [hmakes.here, hmakes.view_eq hzero' hother,
    hmakes.view_eq_of_apart (by rw [Path.location_join hother]; exact hapart.symm)]
    at hfits hreplaces
  refine ⟨hsource, hfits, ⟨hkeeps.of_run hrun, ?_⟩, hfound,
    fun l hl => hkept l (hmakes.directoryAt hl)⟩
  rw [← hreplaces.inside]
  exact view_congr fun l hl => hlogged.files.get?_eq fun hplace => hlogs l hplace hl

/-- A directory that fits to a directory that is there is copied. -/
theorem copyTree_succeeds (hsource : s.files.isDirectory (Path.join p name) = true)
    (htarget : s.files.isDirectory (Path.join q other) = true)
    (hfits : View.Fits (Path.join p name) (Path.join q other) name
      (s.files.view (Path.location s.files.here p ++ [name]))
      (s.files.view (Path.location s.files.here q ++ [other]))) :
    ∃ after, ((copyTree (Path.join p name) (Path.join q other) true).run s).run = (.ok (), after) := by
  obtain ⟨hsourceReaches, -, hdirectory⟩ := (h.isDirectory_join_iff hzero hname).mp hsource
  obtain ⟨htargetReaches, -, -⟩ := (h.isDirectory_join_iff hzero' hother).mp htarget
  obtain ⟨mode, hget⟩ := directoryAt_iff.mp hdirectory
  obtain ⟨copied, hcopy⟩ := FileAction.copiesAll maxPath s.files p q name other h hsourceReaches
    htargetReaches hname hother hapart ⟨_, hget⟩ hfits (Nat.le_add_right _ _)
  have hmake := FileAction.run_makeDirectories_of_isDirectory hother htarget
  unfold copyTree
  rw [run_get_bind, if_pos hsource, run_bind]
  unfold ensureDirectory
  rw [run_attempt, hmake]
  dsimp only
  rw [run_bind, run_act]
  unfold FileAction.copy
  dsimp only
  rw [hcopy]
  exact ⟨_, rfl⟩

end CopyTree

end Staging

end NativeBuild
