import NativeBuild.Proofs.Files.Removal
import NativeBuild.Proofs.Staging.Visiting

/-!
# What cleaning a directory touches

Before a directory is made anew, the files that its entries lead to are made writable, and links are
followed there, one at the path of the directory as well. So the permission bits may change of a
file that is somewhere else. Nothing else changes outside of the tree that is removed, which is the
link itself where the path ends at one. What is made in the end is empty.
-/
namespace NativeBuild

open NativeBuild.Path (IsName)

namespace FileSystem

variable {fs fs' fs'' : FileSystem} {touched tree : Location → Prop} {dir : Path}
  {at_ l : Location} {name : Text} {mode : Nat} {content : Text}

/-- Some files are made writable for their owner, and nothing else changes. -/
structure Unlocks (touched : Location → Prop) (fs fs' : FileSystem) : Prop where
  here : fs'.here = fs.here
  get?_eq_or : ∀ l, fs'.get? l = fs.get? l ∨ touched l ∧ ∃ mode content,
    fs.get? l = some (.file mode content) ∧ fs'.get? l = some (.file (mode ||| 0o200) content)

theorem Unlocks.refl (touched : Location → Prop) (fs : FileSystem) : Unlocks touched fs fs :=
  ⟨rfl, fun _ => .inl rfl⟩

theorem Unlocks.set (hl : touched l) (hget : fs.get? l = some (.file mode content)) :
    Unlocks touched fs (fs.set l (.file (mode ||| 0o200) content)) := by
  refine ⟨rfl, fun l' => ?_⟩
  obtain hsame | ⟨rfl, hset⟩ := get?_set_eq_or fs l l' (.file (mode ||| 0o200) content)
  · exact .inl hsame
  · exact .inr ⟨hl, mode, content, hget, hset⟩

section Unlocks

variable (h : Unlocks touched fs fs')
include h

theorem Unlocks.filled : Filled (fun _ => False) fs fs' where
  here := h.here
  get?_eq_or l := (h.get?_eq_or l).imp_right fun ⟨_, mode, content, hbefore, hafter⟩ =>
    ⟨⟨_, _, hafter⟩, .inr ⟨mode, content, hbefore⟩⟩

/-- A file stays as it is or is made writable. -/
theorem Unlocks.get?_file (hget : fs.get? l = some (.file mode content)) : ∃ mode',
    fs'.get? l = some (.file mode' content) ∧ mode' ||| 0o200 = mode ||| 0o200 ∧
      (mode ||| 0o200 = mode → mode' = mode) := by
  obtain hsame | ⟨-, _, _, hbefore, hafter⟩ := h.get?_eq_or l
  · exact ⟨mode, hsame.trans hget, rfl, fun _ => rfl⟩
  · cases hbefore.symm.trans hget
    exact ⟨_, hafter, by rw [Nat.or_assoc, Nat.or_self], id⟩

theorem Unlocks.trans (h' : Unlocks touched fs' fs'') : Unlocks touched fs fs'' := by
  refine ⟨h'.here.trans h.here, fun l => ?_⟩
  obtain hsame | ⟨hl, mode, content, hbefore, hafter⟩ := h.get?_eq_or l
  · rw [← hsame]
    exact h'.get?_eq_or l
  · obtain hsame' | ⟨-, _, _, hbetween, hafter'⟩ := h'.get?_eq_or l
    · exact .inr ⟨hl, mode, content, hbefore, hsame'.trans hafter⟩
    · cases hbetween.symm.trans hafter
      exact .inr ⟨hl, mode, content, hbefore, by rw [hafter', Nat.or_assoc, Nat.or_self]⟩

theorem Unlocks.directoryAt (hl : fs.directoryAt l = true) : fs'.directoryAt l = true := by
  obtain ⟨mode, hget⟩ := directoryAt_iff.mp hl
  obtain hsame | ⟨-, _, _, hbefore, -⟩ := h.get?_eq_or l
  · exact directoryAt_iff.mpr ⟨mode, hsame.trans hget⟩
  · cases hbefore.symm.trans hget

theorem Unlocks.rooted (hfs : fs.Rooted) : fs'.Rooted := by
  refine ⟨fun rel name hne => h.directoryAt (hfs.closed rel name fun hnone => hne ?_), ?_⟩
  · obtain hsame | ⟨-, _, _, hbefore, -⟩ := h.get?_eq_or ([] ++ (rel ++ [name]))
    · exact hsame.trans hnone
    · cases hbefore.symm.trans hnone
  · rw [h.here]
    exact h.directoryAt hfs.here

end Unlocks

/-- Outside of a tree, some files are made writable for their owner, directories are made where
nothing was, and nothing else changes. -/
structure Spares (touched tree : Location → Prop) (fs fs' : FileSystem) : Prop where
  here : fs'.here = fs.here
  get?_eq_or : ∀ l, ¬ tree l → fs'.get? l = fs.get? l ∨
    fs.get? l = none ∧ fs'.get? l = some (.directory (FileAction.maskedMode 0o777)) ∨
    touched l ∧ ∃ mode content,
      fs.get? l = some (.file mode content) ∧ fs'.get? l = some (.file (mode ||| 0o200) content)

theorem Unlocks.spares (h : Unlocks touched fs fs') : Spares touched tree fs fs' :=
  ⟨h.here, fun l _ => (h.get?_eq_or l).imp_right .inr⟩

theorem Spares.removed (h : Spares touched tree fs fs') (hremoved : FileAction.Removed fs' at_ fs'')
    (hat : ∀ l, at_ <+: l → tree l) : Spares touched tree fs fs'' := by
  refine ⟨hremoved.here.trans h.here, fun l hl => ?_⟩
  rw [hremoved.get?_eq fun hprefix => hl (hat l hprefix)]
  exact h.get?_eq_or l hl

theorem Spares.adds (h : Spares touched tree fs fs') (hadds : Adds fs' fs'') :
    Spares touched tree fs fs'' := by
  refine ⟨hadds.here.trans h.here, fun l hl => ?_⟩
  obtain hsame | ⟨hnone, hmade⟩ := hadds.get?_eq_or l
  · rw [hsame]
    exact h.get?_eq_or l hl
  · obtain hbefore | ⟨-, hafter⟩ | ⟨-, _, _, -, hafter⟩ := h.get?_eq_or l hl
    · exact .inr (.inl ⟨hbefore.symm.trans hnone, hmade⟩)
    · cases hafter.symm.trans hnone
    · cases hafter.symm.trans hnone

/-- A name in the directory that a path leads to leads to a location. -/
def LedTo (fs : FileSystem) (dir : Path) (l : Location) : Prop :=
  ∃ names, fs.list dir = .ok names ∧ ∃ name ∈ names, ∃ e, fs.status (Path.join dir name) = .ok (l, e)

/-- A location directly in the directory that a path leads to. -/
def LiesIn (fs : FileSystem) (dir : Path) (l : Location) : Prop :=
  ∃ at_ mode name, fs.status dir = .ok (at_, .directory mode) ∧ l = at_ ++ [name]

/-- Where a link leads that is directly in the directory that a path leads to. -/
def LinkedFrom (fs : FileSystem) (dir : Path) (l : Location) : Prop :=
  ∃ at_ mode name target e, fs.status dir = .ok (at_, .directory mode) ∧
    fs.get? (at_ ++ [name]) = some (.link target) ∧ fs.status (Path.join dir name) = .ok (l, e)

/-- What goes when a path is removed: what stands at its end, and all below. A link at the end stands
for itself unless a slash stands behind it. -/
def InTree (fs : FileSystem) (dir : Path) (l : Location) : Prop :=
  ∃ root e, fs.entryAt (dir.getLast? == some Path.slash) dir = .ok (root, e) ∧ root <+: l

theorem Unlocks.inTree (h : Unlocks touched fs fs') {e : Entry}
    (hentry : fs'.entryAt (dir.getLast? == some Path.slash) dir = .ok (at_, e)) (hl : at_ <+: l) :
    fs.InTree dir l := by
  have hresolve' := resolve_of_entryAt hentry
  rw [h.filled.resolve_eq] at hresolve'
  cases hresolve : fs.resolve (dir.getLast? == some Path.slash) dir with
  | error =>
    rw [hresolve] at hresolve'
    cases hresolve'
  | ok place =>
    rw [hresolve] at hresolve'
    cases place with
    | free => cases hresolve'
    | entry root before =>
      cases hresolve'
      exact ⟨_, before, entryAt_eq_ok_iff.mpr hresolve, hl⟩

/-- The entries of a file system have names, in directories that are there. -/
structure Tidy (fs : FileSystem) : Prop where
  rooted : fs.Rooted
  names : ∀ e ∈ fs.entries, ∀ name ∈ e.1, IsName name

/-- What the names in a directory lead to is in the directory, or is linked from there. -/
theorem Tidy.liesIn_or_linkedFrom (h : fs.Tidy) (hzero : 0 ∉ dir) (hl : fs.LedTo dir l) :
    fs.LiesIn dir l ∨ fs.LinkedFrom dir l := by
  obtain ⟨names, hlist, name, hmem, e, hstatus⟩ := hl
  obtain ⟨at_, mode, hdir, rfl⟩ := FileAction.of_list hlist
  obtain ⟨entry, hget⟩ := mem_names_iff.mp hmem
  by_cases hlink : ∃ target, entry = .link target
  · obtain ⟨target, rfl⟩ := hlink
    exact .inr ⟨at_, mode, name, target, e, hdir, hget, hstatus⟩
  · have hname : IsName name := isName_of_mem_names h.names hmem
    refine .inl ⟨at_, mode, name, hdir, ?_⟩
    exact (h.rooted.rootedFor dir).location_of_join hzero hname hdir hget
      (fun target heq => hlink ⟨target, heq⟩) hstatus

end FileSystem

namespace Staging

open FileSystem

variable {s s' : Session} {dir : Path}

/-- A visit makes the files writable that the names lead to, and changes nothing else. -/
theorem unlocks_of_visit (touched : Location → Prop) {names : List Text} (left : Option FileError)
    (htouched : ∀ name ∈ names, ∀ l e, s.files.status (Path.join dir name) = .ok (l, e) → touched l) :
    ∃ left' after, ((visit dir (fun name => attempt "cannot make writable" (Path.join dir name)
        (FileAction.allowWriting (Path.join dir name))) left names).run s).run = (.ok left', after) ∧
      Unlocks touched s.files after.files ∧
      ∀ name ∈ names, ∀ l mode content,
        s.files.status (Path.join dir name) = .ok (l, .file mode content) →
        after.files.get? l = some (.file (mode ||| 0o200) content) := by
  induction names generalizing s left with
  | nil => exact ⟨left, s, rfl, .refl _ _, nofun⟩
  | cons name rest ih =>
    obtain ⟨hfirst, hrest⟩ := List.forall_mem_cons.mp htouched
    rw [run_visit_cons]
    split
    · next l mode content hstatus =>
      have hget := get?_of_status hstatus rfl
      have hset : Unlocks touched s.files (s.files.set l (.file (mode ||| 0o200) content)) :=
        .set (hfirst l _ hstatus) hget
      -- What the other names lead to is where it was.
      obtain ⟨left', after, hrun, hunlocks, hall⟩ := ih (s := { s with
          files := s.files.set l (.file (mode ||| 0o200) content) }) none fun name hname l e hafter => by
        obtain ⟨_, _, -, herror⟩ | ⟨_, e', _, hbefore, hok, -⟩ :=
          hset.filled.status_cases (p := Path.join dir name) fun _ _ => id
        · cases herror.symm.trans hafter
        · cases hok.symm.trans hafter
          exact hrest name hname l e' hbefore
      rw [run_bind, run_attempt, FileAction.run_allowWriting hstatus]
      refine ⟨left', after, hrun, hset.trans hunlocks, List.forall_mem_cons.mpr ⟨?_, ?_⟩⟩
      · intro l' mode' content' hstatus'
        cases hstatus.symm.trans hstatus'
        have hunlocked : (s.files.set l (.file (mode ||| 0o200) content)).get? l =
            some (.file (mode ||| 0o200) content) := by
          rw [get?_set _ _ _ _ ((stands_of_resolve (resolve_of_status hstatus)).belowRoot rfl), if_pos rfl]
        obtain ⟨_, hafter, -, hkept⟩ := hunlocks.get?_file hunlocked
        rw [hafter, hkept (by rw [Nat.or_assoc, Nat.or_self])]
      · intro name hname l' mode' content' hbefore
        obtain ⟨_, _, hbetween⟩ := hset.filled.status_of_file hbefore
        obtain ⟨_, hthere, hmode, -⟩ := hset.get?_file (get?_of_status hbefore rfl)
        cases hthere.symm.trans (get?_of_status hbetween rfl)
        rw [hall name hname _ _ _ hbetween, hmode]
    · next hnot =>
      obtain ⟨left', after, hrun, hunlocks, hall⟩ := ih (s.files.refusal? (Path.join dir name)) hrest
      exact ⟨left', after, hrun, hunlocks, List.forall_mem_cons.mpr
        ⟨fun l mode content hfile => absurd hfile (hnot l mode content), hall⟩⟩

/-- Making the files of a directory writable is just that, refused or not. -/
theorem unlocks_of_allowWriting {result : Except Failure Unit}
    (hrun : ((allowWriting dir).run s).run = (result, s')) :
    Unlocks (s.files.LedTo dir) s.files s'.files ∧ ∀ l mode content, s.files.LedTo dir l →
      s.files.get? l = some (.file mode content) →
      s'.files.get? l = some (.file (mode ||| 0o200) content) := by
  unfold allowWriting at hrun
  rw [run_get_bind] at hrun
  split at hrun
  · next hthere =>
    obtain ⟨at_, _, hdir⟩ := isDirectory_iff.mp hthere
    have hlist := FileAction.list_of_status hdir
    obtain ⟨left, after, hvisit, hunlocks, hall⟩ := unlocks_of_visit (s.files.LedTo dir) none
      fun name hname l e hstatus => ⟨_, hlist, name, hname, e, hstatus⟩
    have hafter : s' = after := by
      rw [run_forFiles hlist, hvisit] at hrun
      cases left <;> exact (congrArg Prod.snd hrun).symm
    subst hafter
    refine ⟨hunlocks, ?_⟩
    rintro l mode content ⟨names, hnames, name, hname, e, hstatus⟩ hget
    cases hlist.symm.trans hnames
    have hstands : (s.files.get? l).getD (.directory 0o755) = e :=
      stands_of_resolve (resolve_of_status hstatus)
    rw [hget, Option.getD_some] at hstands
    exact hall name hname l mode content (hstands ▸ hstatus)
  · next hnot =>
    obtain rfl : s = s' := congrArg Prod.snd hrun
    refine ⟨.refl _ _, ?_⟩
    rintro l mode content ⟨names, hnames, -⟩ -
    obtain ⟨at_, mode, hdir, -⟩ := FileAction.of_list hnames
    exact absurd (isDirectory_iff.mpr ⟨at_, mode, hdir⟩) hnot

section

variable (hzero : 0 ∉ dir)
include hzero

/-- Outside of the tree that is removed, only files that names in the directory lead to change when
it is made anew, refused or not. -/
theorem spares_of_recreate :
    PreservesFrom (fun t => Spares (s.files.LedTo dir) (s.files.InTree dir) s.files t.files)
      (recreate dir) s := by
  have hmake (t : Session) (ht : Spares (s.files.LedTo dir) (s.files.InTree dir) s.files t.files) :
      PreservesFrom (fun t => Spares (s.files.LedTo dir) (s.files.InTree dir) s.files t.files)
        (ensureDirectory dir) t :=
    preservesFrom_attempt_files (ht.adds
      (FileAction.preserves_makeDirectories_of_adds t.files dir t.files (.refl _)))
  refine PreservesFrom.get_bind ?_
  split
  · have hallow : ∀ t result, ((allowWriting dir).run s).run = (result, t) →
        Unlocks (s.files.LedTo dir) s.files t.files :=
      fun t result hrun => (unlocks_of_allowWriting hrun).1
    refine PreservesFrom.bind (hallow _ _ rfl).spares fun _ t hallowed _ => ?_
    have ht := hallow t _ hallowed
    refine PreservesFrom.bind (preservesFrom_attempt_files ?_) fun _ between _ => hmake between
    obtain hsame | ⟨root, e, hentry, hremoved⟩ := FileAction.run_removeAll_cases t.files hzero
    · unfold PreservesFrom
      rw [hsame]
      exact ht.spares
    · exact ht.spares.removed hremoved fun l hl => ht.inTree hentry hl
  · exact hmake s (Unlocks.refl _ _).spares

/-- What has been made anew is empty. The current directory is not removed on the way if the path
starts from it. -/
theorem empty_of_recreate (h : s.files.Rooted) (hdots : Path.dotDot ∉ Path.components dir)
    (hhere : Path.isAbsolute dir = true ∨ ¬ s.files.InTree dir s.files.here)
    (hrun : ((recreate dir).run s).run = (.ok (), s')) :
    ∃ at_ mode, s'.files.status dir = .ok (at_, .directory mode) ∧ s'.files.names at_ = [] := by
  have hmake (t : Session) (ht : t.files.RootedFor dir) {e : FileError}
      (hstatus : t.files.status dir = .error e)
      (hrun : ((ensureDirectory dir).run t).run = (.ok (), s')) :
      ∃ at_ mode, s'.files.status dir = .ok (at_, .directory mode) ∧ s'.files.names at_ = [] := by
    obtain ⟨files, hmade, rfl⟩ := of_run_attempt hrun
    exact FileAction.empty_of_makeDirectories ht hzero hdots hstatus hmade
  unfold recreate at hrun
  rw [run_get_bind] at hrun
  split at hrun
  · obtain ⟨⟨⟩, t, hallowed, hrun⟩ := of_run_bind hrun
    obtain ⟨⟨⟩, between, hattempt, hrun⟩ := of_run_bind hrun
    obtain ⟨files, hremove, rfl⟩ := of_run_attempt hattempt
    have ht := (unlocks_of_allowWriting hallowed).1
    have hrooted := (ht.rooted h).rootedFor dir
    obtain ⟨e, hgone⟩ := FileAction.status_of_removeAll hremove
    have hremoved := FileAction.run_removeAll_cases t.files hzero
    rw [hremove] at hremoved
    obtain hsame | ⟨root, e, hentry, hremoved⟩ := hremoved
    · exact hmake _ ((show files = t.files from hsame) ▸ hrooted) hgone hrun
    · refine hmake _ (hremoved.rootedFor hrooted (hhere.imp_right fun hnot hroot => ?_)) hgone hrun
      exact hnot (ht.inTree hentry (ht.here ▸ hroot))
  · next hnone =>
    cases hstatus : s.files.status dir with
    | ok found =>
      unfold doesExist at hnone
      rw [hstatus] at hnone
      exact absurd rfl hnone
    | error e => exact hmake s (h.rootedFor dir) hstatus hrun

end

/-- What cleaning a directory touches. Making its files writable sets the permission bit for the
owner of each file that a name in the directory leads to, which may be one that a link there leads
to, and changes nothing else. Outside of the tree that is removed, making the directory anew does no
more than that and makes the directories that are missing, refused or not. If it is not refused, the
path leads to an empty directory, unless it leaves a directory again that it enters, or starts from
the current directory and that is removed. -/
theorem touched_by_cleaning (h : Tidy s.files) (hzero : 0 ∉ dir) :
    (∀ result t, ((allowWriting dir).run s).run = (result, t) →
      Unlocks (s.files.LedTo dir) s.files t.files ∧
      ∀ l mode content, s.files.LedTo dir l → s.files.get? l = some (.file mode content) →
        t.files.get? l = some (.file (mode ||| 0o200) content)) ∧
    (∀ result t, ((recreate dir).run s).run = (result, t) →
      Spares (s.files.LedTo dir) (s.files.InTree dir) s.files t.files ∧
      (result = .ok () → Path.dotDot ∉ Path.components dir →
        Path.isAbsolute dir = true ∨ ¬ s.files.InTree dir s.files.here →
        ∃ at_ mode, t.files.status dir = .ok (at_, .directory mode) ∧ t.files.names at_ = [])) ∧
    ∀ l, s.files.LedTo dir l → s.files.LiesIn dir l ∨ s.files.LinkedFrom dir l := by
  refine ⟨fun result t hrun => unlocks_of_allowWriting hrun, fun result t hrun => ⟨?_, ?_⟩,
    fun l => h.liesIn_or_linkedFrom hzero⟩
  · exact (spares_of_recreate hzero).of_run hrun
  · rintro rfl hdots hhere
    exact empty_of_recreate hzero h.rooted hdots hhere hrun

/-- A file that nobody may write, and a directory with a link to it. -/
def linkedFile : Session where
  files := { entries := [([utf8 "out.txt"], .file 0o444 (utf8 "x")), ([utf8 "d"], .directory 0o755),
    ([utf8 "d", utf8 "x"], .link (utf8 "../out.txt"))] }

/-- The file is made writable, although it is not in the directory. -/
theorem touched_by_cleaning_of_linkedFile :
    Tidy linkedFile.files ∧ 0 ∉ utf8 "d" ∧ ¬ linkedFile.files.LiesIn (utf8 "d") [utf8 "out.txt"] ∧
    linkedFile.files.get? [utf8 "out.txt"] = some (.file 0o444 (utf8 "x")) ∧
    (((allowWriting (utf8 "d")).run linkedFile).run.1 = .ok () ∧
      ((allowWriting (utf8 "d")).run linkedFile).run.2.files.get? [utf8 "out.txt"] =
        some (.file 0o644 (utf8 "x"))) ∧
    ((recreate (utf8 "d")).run linkedFile).run.1 = .ok () ∧
    ((recreate (utf8 "d")).run linkedFile).run.2.files.get? [utf8 "out.txt"] =
      some (.file 0o644 (utf8 "x")) ∧
    ∃ at_ mode, ((recreate (utf8 "d")).run linkedFile).run.2.files.status (utf8 "d") =
        .ok (at_, .directory mode) ∧
      ((recreate (utf8 "d")).run linkedFile).run.2.files.names at_ = [] := by
  have htidy : Tidy linkedFile.files :=
    ⟨⟨closed_of_entries (by decide +kernel), rfl⟩, by decide +kernel⟩
  have hzero : 0 ∉ utf8 "d" := by decide +kernel
  have hdir : linkedFile.files.status (utf8 "d") = .ok ([utf8 "d"], .directory 0o755) := by
    decide +kernel
  have hget : linkedFile.files.get? [utf8 "out.txt"] = some (.file 0o444 (utf8 "x")) := by
    decide +kernel
  have hled : linkedFile.files.LedTo (utf8 "d") [utf8 "out.txt"] :=
    ⟨[utf8 "x"], by decide +kernel, utf8 "x", .head _, .file 0o444 (utf8 "x"), by decide +kernel⟩
  obtain ⟨hallow, hrecreate, -⟩ := touched_by_cleaning htidy hzero
  have hrun (job : Job Unit) (hok : (job.run linkedFile).run.1 = .ok ()) :
      (job.run linkedFile).run = (.ok (), (job.run linkedFile).run.2) := Prod.ext hok rfl
  have hallowed : ((allowWriting (utf8 "d")).run linkedFile).run.1 = .ok () := by decide +kernel
  have hrecreated : ((recreate (utf8 "d")).run linkedFile).run.1 = .ok () := by decide +kernel
  have hhere : ¬ linkedFile.files.InTree (utf8 "d") linkedFile.files.here := by
    rintro ⟨root, e, hentry, hroot⟩
    obtain rfl : root = [] := List.prefix_nil.mp hroot
    have hnot : linkedFile.files.entryAt ((utf8 "d").getLast? == some Path.slash) (utf8 "d") =
        .ok ([utf8 "d"], .directory 0o755) := by decide +kernel
    cases hnot.symm.trans hentry
  refine ⟨htidy, hzero, ?_, hget, ⟨hallowed, ?_⟩, hrecreated, by decide +kernel, ?_⟩
  · rintro ⟨at_, mode, name, hstatus, hl⟩
    cases hdir.symm.trans hstatus
    simp at hl
  · exact (hallow _ _ (hrun _ hallowed)).2 _ _ _ hled hget
  · exact (hrecreate _ _ (hrun _ hrecreated)).2 rfl (by decide +kernel) (.inr hhere)

end Staging

end NativeBuild
