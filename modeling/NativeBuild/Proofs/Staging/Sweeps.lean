import NativeBuild.Proofs.Files.Reordered
import NativeBuild.Proofs.Files.Rooted
import NativeBuild.Proofs.Staging.Visiting

/-!
# The order in which a directory is enumerated

The tasks that act on the files directly in a directory meet them in the order of enumeration. No
file that they change keeps them from another one, or lets them find one that was not there, unless
a link leads to where a copy is made. So what is refused and what leads nowhere is the same in every
order, and only two things depend on the order: which of the files that are refused is met first,
and whether a name that leads nowhere is the last one.
-/
namespace NativeBuild.Staging

open FileSystem

/-- A copy of the file with a name if the name has an ending. -/
def copyNamed (source target : Path) (ending name : Text) : FileAction Unit :=
  if ending.isSuffixOf name then
    FileAction.copyFile (Path.join source name) (Path.join target name) true
  else pure ()

/-- A file cannot be acted on as the files are. -/
def Refused (fs : FileSystem) (dir : Path) (action : Text → FileAction Unit) (name : Text) : Prop :=
  fs.isFile (Path.join dir name) = true ∧ ∃ e fs', ((action name).run fs).run = (.error e, fs')

/-- A name leads nowhere. -/
def Nowhere (fs : FileSystem) (dir : Path) (name : Text) : Prop :=
  fs.doesExist (Path.join dir name) = false

/-- Where a copy of a file with one of some names is made, because nothing is there. -/
def Made (fs : FileSystem) (target : Path) (ending : Text) (names : List Text) (l : Location) : Prop :=
  ∃ name ∈ names, ending.isSuffixOf name = true ∧
    fs.resolve true (Path.join target name) = .ok (.free l)

/-- No name in the source leads to where a copy is going to be made. -/
def Untangled (fs : FileSystem) (source target : Path) (ending : Text) (names : List Text) : Prop :=
  ∀ name ∈ names, ∀ l, fs.resolve true (Path.join source name) = .ok (.free l) →
    ¬ Made fs target ending names l

section

variable {fs : FileSystem} {dir source target : Path} {ending : Text} {names all : List Text}
  {s : Session}

/-- Making the files of a directory writable ends as the last name says. -/
theorem ends_of_allowWriting (hs : Filled (fun _ => False) fs s.files)
    (hlist : s.files.list dir = .ok names) :
    Ends "cannot make writable" dir (fun name => FileAction.allowWriting (Path.join dir name))
      (Refused fs dir fun name => FileAction.allowWriting (Path.join dir name)) (Nowhere fs dir)
      (fun _ => Filled (fun _ => False) fs) names
      ((forFiles dir fun name => attempt "cannot make writable" (Path.join dir name)
        (FileAction.allowWriting (Path.join dir name))).run s).run.1 := by
  refine ends_of_forFiles hlist (fun _ => hs) ?_ ?_ ?_
  · rintro _ - name - after - ⟨hfile, e, fs', hrun⟩
    obtain ⟨at_, mode, content, hstatus⟩ := exists_status_of_isFile hfile
    rw [FileAction.run_allowWriting hstatus] at hrun
    cases congrArg Prod.fst hrun
  · intro _ _ name _ after hafter _ hfile
    obtain ⟨at_, mode, content, hstatus⟩ := exists_status_of_isFile hfile
    have hstands := stands_of_resolve (resolve_of_status hstatus)
    exact ⟨_, FileAction.run_allowWriting hstatus,
      hafter.trans (.set (hstands.belowRoot rfl) (.inr ⟨mode, content, hstands.get?_eq rfl⟩))⟩
  · intro _ _ name _ after hafter
    unfold Nowhere
    rw [hafter.doesExist_eq fun _ _ => id]

section Copies

variable (hrooted : fs.Rooted)
include hrooted

/-- Where something is, no copy is made. -/
theorem not_made_of_entry {p : Path} {follow : Bool} {at_ : Location} {e : Entry}
    (hresolve : fs.resolve follow p = .ok (.entry at_ e)) : ¬ Made fs target ending all at_ := by
  rintro ⟨name, -, -, hfree⟩
  have hthere : fs.get? at_ = some e := (hrooted.rootedFor _).found_of_resolve hresolve
  cases hthere.symm.trans ((hrooted.rootedFor _).found_of_resolve hfree).1

section

variable {after after' : FileSystem} (hafter : Filled (Made fs target ending all) fs after)
  {name : Text}
include hafter

/-- A file that can be copied once others have been copied could be copied before, and the other way
around. -/
theorem copied_iff {origin : Location} {mode mode' : Nat} {content content' : Text}
    (hbefore : fs.status (Path.join source name) = .ok (origin, .file mode content))
    (hstatus : after.status (Path.join source name) = .ok (origin, .file mode' content')) :
    (∃ fs', ((copyNamed source target ending name).run after).run = (.ok (), fs')) ↔
      ∃ fs', ((copyNamed source target ending name).run fs).run = (.ok (), fs') := by
  have hopens : Opens [origin] (Path.join target name) fs ↔
      Opens [origin] (Path.join target name) after :=
    hafter.opens_iff fun _ _ => not_made_of_entry hrooted
  unfold copyNamed
  split
  · constructor
    · rintro ⟨fs', hrun⟩
      obtain ⟨origin', _, _, hstatus', hafterOpens⟩ := FileAction.opens_of_copyFile hrun
      obtain ⟨rfl, -⟩ := Prod.mk.inj (Except.ok.inj (hstatus.symm.trans hstatus'))
      obtain ⟨fs'', hrun', -⟩ := FileAction.run_copyFile_of_opens hbefore (hopens.mpr hafterOpens)
      exact ⟨fs'', hrun'⟩
    · rintro ⟨fs', hrun⟩
      obtain ⟨origin', _, _, hstatus', hbeforeOpens⟩ := FileAction.opens_of_copyFile hrun
      obtain ⟨rfl, -⟩ := Prod.mk.inj (Except.ok.inj (hbefore.symm.trans hstatus'))
      obtain ⟨fs'', hrun', -⟩ := FileAction.run_copyFile_of_opens hstatus (hopens.mp hbeforeOpens)
      exact ⟨fs'', hrun'⟩
  · exact ⟨fun _ => ⟨fs, rfl⟩, fun _ => ⟨after, rfl⟩⟩

omit hrooted in
/-- A copy changes the files that are there, and makes one where nothing was. -/
theorem filled_of_copyNamed (hname : name ∈ all)
    (hrun : ((copyNamed source target ending name).run after).run = (.ok (), after')) :
    Filled (Made fs target ending all) fs after' := by
  unfold copyNamed at hrun
  split at hrun
  · next hending =>
    obtain ⟨origin, mode, content, hstatus, hopens⟩ := FileAction.opens_of_copyFile hrun
    obtain ⟨fs', hrun', hfilled⟩ := FileAction.run_copyFile_of_opens hstatus hopens
    obtain ⟨-, rfl⟩ := Prod.mk.inj (hrun.symm.trans hrun')
    exact hafter.trans (hfilled.mono fun l hfree => ⟨name, hname, hending, hafter.resolve_free hfree⟩)
  · obtain ⟨-, rfl⟩ := Prod.mk.inj hrun
    exact hafter

end

/-- Copying the files of a directory ends as it would if no file had been copied before. -/
theorem ends_of_copies (huntangled : Untangled fs source target ending all)
    (hs : Filled (fun _ => False) fs s.files) (hlist : s.files.list source = .ok names)
    (hsub : names ⊆ all) :
    Ends "copy failed" source (copyNamed source target ending)
      (Refused fs source (copyNamed source target ending)) (Nowhere fs source)
      (fun done => Filled (Made fs target ending done) fs) names
      ((forFiles source fun name => attempt "copy failed" (Path.join source name)
        (copyNamed source target ending name)).run s).run.1 := by
  -- What a name leads to is not where a copy is made.
  have hapart (done : List Text) (hdone : done ⊆ names) (name : Text) (hname : name ∈ names)
      (place : Place) (hresolve : fs.resolve true (Path.join source name) = .ok place) :
      ¬ Made fs target ending done place.location := by
    cases place with
    | free l =>
      rintro ⟨other, hother, hmade⟩
      exact huntangled name (hsub hname) l hresolve ⟨other, hsub (hdone hother), hmade⟩
    | entry at_ e => exact not_made_of_entry hrooted hresolve
  have hcopied (done : List Text) (name : Text) (after : FileSystem)
      (hafter : Filled (Made fs target ending done) fs after)
      (hfile : fs.isFile (Path.join source name) = true) :
      (∃ fs', ((copyNamed source target ending name).run after).run = (.ok (), fs')) ↔
        ∃ fs', ((copyNamed source target ending name).run fs).run = (.ok (), fs') := by
    obtain ⟨origin, mode, content, hstatus⟩ := exists_status_of_isFile hfile
    obtain ⟨mode', content', hstatus'⟩ := hafter.status_of_file hstatus
    exact copied_iff hrooted hafter hstatus hstatus'
  refine ends_of_forFiles hlist (fun _ => hs.mono fun _ => False.elim) ?_ ?_ ?_
  · rintro done hdone name hname after hafter ⟨hfile, e, fs', hrefused⟩
    refine ⟨(hafter.isFile_eq (hapart done hdone name hname)).trans hfile, ?_⟩
    cases hrun : ((copyNamed source target ending name).run after).run with
    | mk result after' =>
      cases result with
      | error e => exact ⟨e, after', rfl⟩
      | ok =>
        obtain ⟨fs'', hrun'⟩ := (hcopied done name after hafter hfile).mp ⟨after', hrun⟩
        cases hrefused.symm.trans hrun'
  · intro done hdone name hname after hafter hnot hfile
    rw [hafter.isFile_eq (hapart done hdone name (hdone hname))] at hfile
    have hbefore : ∃ fs', ((copyNamed source target ending name).run fs).run = (.ok (), fs') := by
      cases hrun : ((copyNamed source target ending name).run fs).run with
      | mk result fs' =>
        cases result with
        | error e => exact absurd ⟨hfile, e, fs', hrun⟩ hnot
        | ok => exact ⟨fs', rfl⟩
    obtain ⟨after', hrun⟩ := (hcopied done name after hafter hfile).mpr hbefore
    exact ⟨after', hrun, filled_of_copyNamed hafter hname hrun⟩
  · intro done hdone name hname after hafter
    unfold Nowhere
    rw [hafter.doesExist_eq (hapart done hdone name hname)]

end Copies

end

/-- The tasks that act on the files directly in a directory. -/
inductive Sweep where
  | allowWriting (dir : Path)
  | copyMetadata (dir target : Path)
  | copyResources (dir target : Path)

namespace Sweep

def job : Sweep → Job Unit
  | .allowWriting dir => Staging.allowWriting dir
  | .copyMetadata dir target => Staging.copyMetadata dir target
  | .copyResources dir target => Staging.copyResources dir target

/-- The directory whose files are acted on. -/
def dir (here : Path) : Sweep → Path
  | .allowWriting dir => dir
  | .copyMetadata dir _ => metadataFolder (generated here dir)
  | .copyResources dir _ => resourcesFolder (generated here dir)

/-- What is made before. -/
def prepare : Sweep → Job Unit
  | .allowWriting _ => pure ()
  | .copyMetadata _ target => ensureDirectory target
  | .copyResources _ target => ensureDirectory target

/-- What is done with the file that a name leads to. -/
def act (here : Path) : Sweep → Text → FileAction Unit
  | .allowWriting dir => fun name => FileAction.allowWriting (Path.join dir name)
  | .copyMetadata dir target =>
    copyNamed (metadataFolder (generated here dir)) target metadataEnding
  | .copyResources dir target =>
    copyNamed (resourcesFolder (generated here dir)) target resourcesEnding

def tried : Sweep → String
  | .allowWriting _ => "cannot make writable"
  | .copyMetadata _ _ => "copy failed"
  | .copyResources _ _ => "copy failed"

/-- How a task ends if there is no such directory. -/
def missing (here : Path) : Sweep → Except Failure Unit
  | .allowWriting _ => .ok ()
  | w => .error (.files (utf8 "generated data directory missing") (w.dir here))

/-- No name leads to where a copy is going to be made. -/
def Clear (here : Path) (fs : FileSystem) (names : List Text) : Sweep → Prop
  | .allowWriting _ => True
  | .copyMetadata dir target =>
    Untangled fs (metadataFolder (generated here dir)) target metadataEnding names
  | .copyResources dir target =>
    Untangled fs (resourcesFolder (generated here dir)) target resourcesEnding names

/-- What the files may be after some of them have been acted on: files have changed, and where nothing
was, copies of them have been made. -/
def Meanwhile (fs : FileSystem) (done : List Text) : Sweep → FileSystem → Prop
  | .allowWriting _ => Filled (fun _ => False) fs
  | .copyMetadata _ target => Filled (Made fs target metadataEnding done) fs
  | .copyResources _ target => Filled (Made fs target resourcesEnding done) fs

def result (w : Sweep) (s : Session) : Except Failure Unit := (w.job.run s).run.1

/-- The directory is there, and what is made before has been made. -/
structure Begins (w : Sweep) (s m : Session) : Prop where
  there : s.files.isDirectory (w.dir s.here) = true
  prepared : (w.prepare.run s).run = (.ok (), m)

/-- A copy of what has the ending, as an attempt. -/
theorem attempt_copyNamed (source target : Path) (ending name : Text) :
    attempt "copy failed" (Path.join source name) (copyNamed source target ending name) =
      if ending.isSuffixOf name then
        attempt "copy failed" (Path.join source name)
          (FileAction.copyFile (Path.join source name) (Path.join target name) true)
      else return () := by
  unfold copyNamed
  split <;> rfl

variable {w : Sweep} {s t m : Session} {fs : FileSystem} {here : Path} {names all : List Text}

theorem result_of_isDirectory (h : s.files.isDirectory (w.dir s.here) = true) :
    w.result s = ((w.prepare >>= fun _ => forFiles (w.dir s.here) fun name =>
      attempt w.tried (Path.join (w.dir s.here) name) (w.act s.here name)).run s).run.1 := by
  have hcopy (source target : Path) (ending : Text) (h : s.files.isDirectory source = true) :
      ((copyMatching source target ending).run s).run.1 =
        ((ensureDirectory target >>= fun _ => forFiles source fun name =>
          attempt "copy failed" (Path.join source name)
            (copyNamed source target ending name)).run s).run.1 := by
    simp only [attempt_copyNamed]
    unfold copyMatching
    rw [run_get_bind, if_pos h]
  cases w with
  | allowWriting dir =>
    replace h : s.files.isDirectory dir = true := h
    unfold result job Staging.allowWriting
    dsimp only
    rw [run_get_bind, if_pos h]
    rfl
  | copyMetadata dir target =>
    unfold result job Staging.copyMetadata
    dsimp only
    rw [run_get_bind]
    exact hcopy _ _ _ h
  | copyResources dir target =>
    unfold result job Staging.copyResources
    dsimp only
    rw [run_get_bind]
    exact hcopy _ _ _ h

theorem result_of_not_isDirectory (h : ¬ s.files.isDirectory (w.dir s.here) = true) :
    w.result s = w.missing s.here := by
  have hcopy (source target : Path) (ending : Text) (h : ¬ s.files.isDirectory source = true) :
      ((copyMatching source target ending).run s).run.1 =
        .error (.files (utf8 "generated data directory missing") source) := by
    unfold copyMatching
    rw [run_get_bind, if_neg h]
    rfl
  cases w with
  | allowWriting dir =>
    replace h : ¬ s.files.isDirectory dir = true := h
    unfold result job Staging.allowWriting
    dsimp only
    rw [run_get_bind, if_neg h]
    rfl
  | copyMetadata dir target =>
    unfold result job Staging.copyMetadata
    dsimp only
    rw [run_get_bind]
    exact hcopy _ _ _ h
  | copyResources dir target =>
    unfold result job Staging.copyResources
    dsimp only
    rw [run_get_bind]
    exact hcopy _ _ _ h

/-- How a task ends that meets the names in one order, by what the files are when it begins. -/
def EndsAs (w : Sweep) (here : Path) (fs : FileSystem) (names : List Text)
    (result : Except Failure Unit) : Prop :=
  Ends w.tried (w.dir here) (w.act here) (Refused fs (w.dir here) (w.act here))
    (Nowhere fs (w.dir here)) (fun done => w.Meanwhile fs done) names result

/-- A task ends as the names say, in whatever order they are listed. -/
theorem ends (hrooted : fs.Rooted) (hclear : w.Clear here fs all)
    (hs : Filled (fun _ => False) fs s.files) (hlist : s.files.list (w.dir here) = .ok names)
    (hsub : names ⊆ all) :
    w.EndsAs here fs names
      ((forFiles (w.dir here) fun name =>
        attempt w.tried (Path.join (w.dir here) name) (w.act here name)).run s).run.1 := by
  cases w with
  | allowWriting dir => exact ends_of_allowWriting hs hlist
  | copyMetadata dir target =>
    exact ends_of_copies hrooted hclear hs hlist hsub
  | copyResources dir target =>
    exact ends_of_copies hrooted hclear hs hlist hsub

/-- Where all names lead somewhere, none leads to where a copy is made. -/
theorem clear_of_doesExist
    (hfound : ∀ name ∈ names, fs.doesExist (Path.join (w.dir here) name) = true) :
    w.Clear here fs names := by
  have huntangled (source target : Path) (ending : Text)
      (hfound : ∀ name ∈ names, fs.doesExist (Path.join source name) = true) :
      Untangled fs source target ending names := by
    intro name hname l hfree
    have hexists := hfound name hname
    unfold doesExist at hexists
    rw [status_of_free hfree] at hexists
    cases hexists
  cases w with
  | allowWriting => trivial
  | copyMetadata => exact huntangled _ _ _ hfound
  | copyResources => exact huntangled _ _ _ hfound

/-- What is made before is made alike in every order. -/
theorem alike_prepare (w : Sweep) (h : Reordered s.files t.files) :
    (w.prepare.run t).run.1 = (w.prepare.run s).run.1 ∧
      Reordered (w.prepare.run s).run.2.files (w.prepare.run t).run.2.files := by
  have hmake (target : Path) : ((ensureDirectory target).run t).run.1 =
        ((ensureDirectory target).run s).run.1 ∧
      Reordered ((ensureDirectory target).run s).run.2.files
        ((ensureDirectory target).run t).run.2.files := by
    obtain ⟨hresult, hfiles⟩ := FileAction.alike_makeDirectories h target
    unfold ensureDirectory
    rw [run_attempt, run_attempt]
    cases hrun : ((FileAction.makeDirectories target).run s.files).run with
    | mk result after =>
    cases hrun' : ((FileAction.makeDirectories target).run t.files).run with
    | mk result' after' =>
      rw [hrun, hrun'] at hresult hfiles
      obtain rfl : result' = result := hresult
      cases result' with
      | error e => exact ⟨rfl, hfiles⟩
      | ok => exact ⟨rfl, hfiles⟩
  cases w with
  | allowWriting dir => exact ⟨rfl, h⟩
  | copyMetadata dir target => exact hmake target
  | copyResources dir target => exact hmake target

theorem of_prepare (hrooted : s.files.Rooted) (hrun : (w.prepare.run s).run = (.ok (), m)) :
    m.files.Rooted ∧ Fewer s.files m.files := by
  have hmake (target : Path) (hrun : ((ensureDirectory target).run s).run = (.ok (), m)) :
      m.files.Rooted ∧ Fewer s.files m.files := by
    obtain ⟨files, hmade, rfl⟩ := of_run_attempt hrun
    exact ⟨(FileAction.preserves_makeDirectories_of_rooted target _ hrooted).of_run hmade,
      ((FileAction.preserves_makeDirectories_of_adds _ target _ (.refl _)).of_run hmade).fewer⟩
  cases w with
  | allowWriting dir =>
    obtain ⟨-, rfl⟩ := Prod.mk.inj hrun
    exact ⟨hrooted, .refl _⟩
  | copyMetadata dir target => exact hmake target hrun
  | copyResources dir target => exact hmake target hrun

/-- A directory that is there is listed when a task begins. -/
theorem Begins.list (h : w.Begins s m) (hrooted : s.files.Rooted) :
    ∃ names, m.files.list (w.dir s.here) = .ok names := by
  obtain ⟨-, hfewer⟩ := of_prepare hrooted h.prepared
  obtain ⟨at_, mode, hstatus⟩ := isDirectory_iff.mp h.there
  exact ⟨_, FileAction.list_of_status ((hrooted.rootedFor _).status_mono hfewer hstatus)⟩

theorem Begins.result_eq (h : w.Begins s m) : w.result s =
    ((forFiles (w.dir s.here) fun name =>
      attempt w.tried (Path.join (w.dir s.here) name) (w.act s.here name)).run m).run.1 := by
  rw [result_of_isDirectory h.there, run_bind_ok h.prepared]

/-- A task that begins in one order begins in every other one. -/
theorem Begins.reordered (hbegins : w.Begins s m) (h : Reordered s.files t.files) :
    ∃ m', w.Begins t m' ∧ Reordered m.files m'.files := by
  obtain ⟨hresult, hfiles⟩ := alike_prepare w h
  have hhere : t.here = s.here := congrArg pathOf h.here
  rw [hbegins.prepared] at hresult hfiles
  refine ⟨(w.prepare.run t).run.2, ⟨?_, Prod.ext hresult rfl⟩, hfiles⟩
  rw [hhere, h.isDirectory_eq]
  exact hbegins.there

/-- A task that does not begin ends alike in every order. -/
theorem result_eq_of_not_begins (h : Reordered s.files t.files) (hnot : ∀ m, ¬ w.Begins s m) :
    w.result t = w.result s := by
  have hhere : t.here = s.here := congrArg pathOf h.here
  by_cases hthere : s.files.isDirectory (w.dir s.here) = true
  · have hthere' : t.files.isDirectory (w.dir t.here) = true := by
      rw [hhere, h.isDirectory_eq]
      exact hthere
    obtain ⟨hresult, -⟩ := alike_prepare w h
    rw [result_of_isDirectory hthere, result_of_isDirectory hthere', run_bind, run_bind]
    cases hrun : (w.prepare.run s).run with
    | mk made m =>
    cases hrun' : (w.prepare.run t).run with
    | mk made' m' =>
      rw [hrun, hrun'] at hresult
      obtain rfl : made' = made := hresult
      cases made' with
      | error => rfl
      | ok => exact absurd ⟨hthere, hrun⟩ (hnot m)
  · have hthere' : ¬ t.files.isDirectory (w.dir t.here) = true := by
      rw [hhere, h.isDirectory_eq]
      exact hthere
    rw [result_of_not_isDirectory hthere, result_of_not_isDirectory hthere', hhere]

/-- Where the order of enumeration matters. A task that does not begin ends alike in every order. One
that begins meets the same names, and the same ones of them are refused or lead nowhere in every
order, so that it stops at the first one that is refused or is taken to have failed for a last one
that leads nowhere, for the reason that the file system gives then. Where every name leads
somewhere, it succeeds in every order or in none, and it does succeed if nothing is refused. -/
theorem result_in_any_order (w : Sweep) (h : Reordered s.files t.files) (hrooted : s.files.Rooted) :
    ((∀ m, ¬ w.Begins s m) → w.result t = w.result s) ∧
    ∀ m, w.Begins s m → ∃ m' names names', w.Begins t m' ∧ names.Perm names' ∧
      m.files.list (w.dir s.here) = .ok names ∧ m'.files.list (w.dir t.here) = .ok names' ∧
      (w.Clear s.here m.files names → w.EndsAs s.here m.files names (w.result s) ∧
        w.EndsAs s.here m.files names' (w.result t)) ∧
      ((∀ name ∈ names, ¬ Nowhere m.files (w.dir s.here) name) →
        (w.result t = .ok () ↔ w.result s = .ok ()) ∧
        ((∀ name ∈ names, ¬ Refused m.files (w.dir s.here) (w.act s.here) name) →
          w.result s = .ok ())) := by
  refine ⟨result_eq_of_not_begins h, fun m hbegins => ?_⟩
  obtain ⟨m', hbegins', hfiles⟩ := hbegins.reordered h
  obtain ⟨names, hlist⟩ := hbegins.list hrooted
  obtain ⟨names', hlist', hperm⟩ := hfiles.exists_list _ hlist
  obtain ⟨hrooted', -⟩ := of_prepare hrooted hbegins.prepared
  have hhere : t.here = s.here := congrArg pathOf h.here
  have hends (hclear : w.Clear s.here m.files names) :
      w.EndsAs s.here m.files names (w.result s) ∧ w.EndsAs s.here m.files names' (w.result t) := by
    have hsame : Filled (fun _ => False) m.files m'.files :=
      ⟨hfiles.here, fun l => .inl (hfiles.get?_eq l)⟩
    rw [hbegins.result_eq, hbegins'.result_eq, hhere]
    exact ⟨ends hrooted' hclear (.refl _ _) hlist (List.Subset.refl names),
      ends hrooted' hclear hsame hlist' hperm.symm.subset⟩
  refine ⟨m', names, names', hbegins', hperm, hlist, hhere ▸ hlist', hends, fun hfound => ?_⟩
  obtain ⟨hs, ht⟩ := hends (clear_of_doesExist fun name hname => by
    simpa [Nowhere] using hfound name hname)
  have hlast (names' : List Text) (hsub : ∀ name ∈ names', name ∈ names) :
      ∀ last ∈ names'.getLast?, ¬ Nowhere m.files (w.dir s.here) last :=
    fun last hlast => hfound last (hsub last (List.mem_of_mem_getLast? hlast))
  rw [hs.eq_ok_iff, ht.eq_ok_iff]
  refine ⟨?_, fun hnone => ⟨hnone, hlast names fun _ => id⟩⟩
  constructor
  · exact fun ⟨hnone, _⟩ =>
      ⟨fun name hname => hnone name (hperm.mem_iff.mp hname), hlast names fun _ => id⟩
  · exact fun ⟨hnone, _⟩ =>
      ⟨fun name hname => hnone name (hperm.mem_iff.mpr hname), hlast names' fun _ => hperm.mem_iff.mpr⟩

/-- A directory with a file and a link that leads nowhere, which is listed last. -/
def danglingLast : Session where
  files := { entries := [([utf8 "d"], .directory 0o755), ([utf8 "d", utf8 "a"], .file 0o444 []),
    ([utf8 "d", utf8 "x"], .link (utf8 "nowhere"))] }

/-- The same directory, with the link listed first. -/
def danglingFirst : Session where
  files := { entries := [([utf8 "d"], .directory 0o755), ([utf8 "d", utf8 "x"], .link (utf8 "nowhere")),
    ([utf8 "d", utf8 "a"], .file 0o444 [])] }

/-- The link is taken for a failed listing if it is met last, although nothing is refused. -/
theorem result_in_any_order_of_danglingLink :
    Reordered danglingLast.files danglingFirst.files ∧ danglingLast.files.Rooted ∧
    (allowWriting (utf8 "d")).Begins danglingLast danglingLast ∧
    (allowWriting (utf8 "d")).result danglingLast =
      .error (.files (utf8 "cannot list directory: " ++ FileError.notFound.message) (utf8 "d")) ∧
    (allowWriting (utf8 "d")).result danglingFirst = .ok () ∧
    ∃ names names', names.Perm names' ∧
      (allowWriting (utf8 "d")).EndsAs danglingLast.here danglingLast.files names
        ((allowWriting (utf8 "d")).result danglingLast) ∧
      (allowWriting (utf8 "d")).EndsAs danglingLast.here danglingLast.files names'
        ((allowWriting (utf8 "d")).result danglingFirst) := by
  have hreordered : Reordered danglingLast.files danglingFirst.files :=
    ⟨rfl, .cons _ (.swap _ _ _), by decide +kernel⟩
  have hrooted : danglingLast.files.Rooted := ⟨closed_of_entries (by decide +kernel), rfl⟩
  have hbegins : (allowWriting (utf8 "d")).Begins danglingLast danglingLast :=
    ⟨by decide +kernel, rfl⟩
  obtain ⟨-, names, names', -, hperm, -, -, hends, -⟩ :=
    (result_in_any_order (allowWriting (utf8 "d")) hreordered hrooted).2 _ hbegins
  exact ⟨hreordered, hrooted, hbegins, by decide +kernel, by decide +kernel, names, names', hperm,
    hends trivial⟩

end Sweep

end NativeBuild.Staging
