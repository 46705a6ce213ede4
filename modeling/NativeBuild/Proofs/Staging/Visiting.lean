import NativeBuild.Proofs.Files.Filling
import NativeBuild.Proofs.Staging.Policy

/-!
# Visits to the files of a directory

A task goes over the names in a directory in the order in which they are enumerated, and acts on
the files among what they lead to. It stops at the first file that is refused. Where none is, the
last name alone decides: if it leads nowhere, the listing is reported as failed.
-/
namespace NativeBuild

open FileSystem

/-- The reason for which a path leads nowhere. -/
def FileSystem.refusal? (fs : FileSystem) (p : Path) : Option FileError :=
  match fs.status p with
  | .ok _ => none
  | .error e => some e

theorem FileSystem.refusal?_eq_none_iff {fs : FileSystem} {p : Path} :
    fs.refusal? p = none ↔ fs.doesExist p = true := by
  unfold refusal? doesExist
  cases fs.status p <;> simp [Except.isOk, Except.toBool]

theorem FileSystem.refusal?_eq_some_iff {fs : FileSystem} {p : Path} {e : FileError} :
    fs.refusal? p = some e ↔ fs.status p = .error e := by
  unfold refusal?
  cases fs.status p <;> simp

theorem FileAction.run_allowWriting {fs : FileSystem} {p : Path} {l : Location} {entry : Entry}
    (hstatus : fs.status p = .ok (l, entry)) : ((allowWriting p).run fs).run =
      (.ok (), fs.set l (entry.withMode (entry.mode ||| 0o200))) := by
  unfold allowWriting
  rw [run_ask_bind, hstatus]
  exact FileAction.run_setMode hstatus _

namespace Staging

variable {I : Session → Prop} {dir : Path} {act : Text → Job Unit} {names : List Text}
  {s : Session}

/-- One name of a visit. -/
theorem run_visit_cons (dir : Path) (act : Text → Job Unit) (left : Option FileError) (name : Text)
    (rest : List Text) (s : Session) : ((visit dir act left (name :: rest)).run s).run =
      match s.files.status (Path.join dir name) with
      | .ok (_, .file _ _) => ((act name >>= fun _ => visit dir act none rest).run s).run
      | _ => ((visit dir act (s.files.refusal? (Path.join dir name)) rest).run s).run := by
  unfold refusal?
  rw [visit, run_get_bind]
  cases s.files.status (Path.join dir name) with
  | error e => rfl
  | ok found =>
    obtain ⟨l, entry⟩ := found
    cases entry <;> rfl

/-- A visit in two parts. -/
theorem run_visit_append (left : Option FileError) (before rest : List Text) (s : Session) :
    ((visit dir act left (before ++ rest)).run s).run =
      ((visit dir act left before >>= fun left => visit dir act left rest).run s).run := by
  induction before generalizing left s with
  | nil => rfl
  | cons name before ih =>
    rw [List.cons_append, run_visit_cons, run_bind (visit dir act left (name :: before)),
      run_visit_cons]
    split
    · rw [run_bind, run_bind]
      cases ((act name).run s).run with
      | mk result between =>
        cases result with
        | error e => rfl
        | ok => exact (ih none between).trans (run_bind _ _ _)
    · exact (ih _ s).trans (run_bind _ _ _)

/-- A visit ends if the act succeeds for each file. What is left then is the reason for which the
last name leads nowhere, if it does. -/
theorem visit_ends (hact : ∀ name ∈ names, ∀ s l mode content, I s →
      s.files.status (Path.join dir name) = .ok (l, .file mode content) →
      ∃ after, ((act name).run s).run = (.ok (), after) ∧ I after) (h : I s)
    (left : Option FileError) :
    ∃ left' after, ((visit dir act left names).run s).run = (.ok left', after) ∧ I after ∧
      (names = [] ∧ left' = left ∨ ∃ last ∈ names.getLast?, ∃ between, I between ∧
        left' = between.files.refusal? (Path.join dir last)) := by
  induction names generalizing s left with
  | nil => exact ⟨left, s, rfl, h, .inl ⟨rfl, rfl⟩⟩
  | cons name rest ih =>
    -- What the name itself leaves counts only if no other one follows.
    have hrest (left : Option FileError) (between s : Session) (hs : I s) (hbetween : I between)
        (hleft : left = between.files.refusal? (Path.join dir name)) :
        ∃ left' after, ((visit dir act left rest).run s).run = (.ok left', after) ∧ I after ∧
          ∃ last ∈ (name :: rest).getLast?, ∃ between, I between ∧
            left' = between.files.refusal? (Path.join dir last) := by
      obtain ⟨left', after, hrun, hafter, ⟨rfl, rfl⟩ | ⟨last, hlast, hrefusal⟩⟩ :=
        ih (fun other hother => hact other (.tail _ hother)) hs left
      · exact ⟨_, after, hrun, hafter, name, rfl, between, hbetween, hleft⟩
      · exact ⟨left', after, hrun, hafter, last, List.mem_getLast?_cons hlast, hrefusal⟩
    rw [run_visit_cons]
    split
    · next l mode content hstatus =>
      obtain ⟨between, hrun, hbetween⟩ := hact name (.head _) s l mode content h hstatus
      rw [run_bind_ok hrun]
      obtain ⟨left', after, hend⟩ := hrest none s between hbetween h (by
        unfold refusal?
        rw [hstatus])
      exact ⟨left', after, hend.1, hend.2.1, .inr hend.2.2⟩
    · obtain ⟨left', after, hend⟩ := hrest _ s s h h rfl
      exact ⟨left', after, hend.1, hend.2.1, .inr hend.2.2⟩

/-- A visit to the names in a directory decides how acting on its files ends. -/
theorem run_forFiles (hlist : s.files.list dir = .ok names) (act : Text → Job Unit) :
    ((forFiles dir act).run s).run =
      match ((visit dir act none names).run s).run with
      | (.ok none, after) => (.ok (), after)
      | (.ok (some e), after) =>
        (.error (.files (utf8 "cannot list directory: " ++ e.message) dir), after)
      | (.error e, after) => (.error e, after) := by
  unfold forFiles
  rw [run_bind, run_attempt, FileAction.run_ask, hlist]
  dsimp only
  rw [run_bind]
  cases ((visit dir act none names).run s).run with
  | mk result after =>
    cases result with
    | error => rfl
    | ok left => cases left <;> rfl

/-- Acting on each file succeeds if the act does, and all names are found. -/
theorem forFiles_succeeds (hlist : s.files.list dir = .ok names)
    (hthere : ∀ name ∈ names, ∀ s, I s → ∃ found, s.files.status (Path.join dir name) = .ok found)
    (hact : ∀ name ∈ names, ∀ s l mode content, I s →
      s.files.status (Path.join dir name) = .ok (l, .file mode content) →
      ∃ after, ((act name).run s).run = (.ok (), after) ∧ I after) (h : I s) :
    ∃ after, ((forFiles dir act).run s).run = (.ok (), after) ∧ I after := by
  obtain ⟨left, after, hrun, hafter, hleft⟩ := visit_ends hact h none
  have hnone : left = none := by
    obtain ⟨-, rfl⟩ | ⟨last, hlast, between, hbetween, rfl⟩ := hleft
    · rfl
    · obtain ⟨found, hstatus⟩ := hthere last (List.mem_of_mem_getLast? hlast) between hbetween
      unfold refusal?
      rw [hstatus]
  subst hnone
  exact ⟨after, by rw [run_forFiles hlist, hrun], hafter⟩

/-- How a task ends that goes over the names in a directory. It stops at the first file that is
refused. Where none is, the listing is reported as failed if the last name leads nowhere. The reason
that is reported is the one that the file system gives then, some of the files having been acted on. -/
inductive Ends (tried : String) (dir : Path) (action : Text → FileAction Unit)
    (refused nowhere : Text → Prop) (meanwhile : List Text → FileSystem → Prop) :
    List Text → Except Failure Unit → Prop
  | stopped {before rest : List Text} {name : Text} {fs fs' : FileSystem} {e : FileError}
    (hbefore : ∀ other ∈ before, ¬ refused other) (h : refused name) (hfs : meanwhile before fs)
    (he : ((action name).run fs).run = (.error e, fs')) :
    Ends tried dir action refused nowhere meanwhile (before ++ name :: rest)
      (.error (.files (utf8 tried ++ utf8 ": " ++ e.message) (Path.join dir name)))
  | unlisted {names : List Text} {last : Text} {fs : FileSystem} {e : FileError}
    (hnone : ∀ name ∈ names, ¬ refused name) (hlast : last ∈ names.getLast?) (h : nowhere last)
    (hfs : meanwhile names fs) (he : fs.status (Path.join dir last) = .error e) :
    Ends tried dir action refused nowhere meanwhile names
      (.error (.files (utf8 "cannot list directory: " ++ e.message) dir))
  | done {names : List Text} (hnone : ∀ name ∈ names, ¬ refused name)
    (hlast : ∀ last ∈ names.getLast?, ¬ nowhere last) :
    Ends tried dir action refused nowhere meanwhile names (.ok ())

section Ends

variable {tried : String} {action : Text → FileAction Unit} {refused nowhere : Text → Prop}
  {meanwhile : List Text → FileSystem → Prop} {result : Except Failure Unit}

/-- A task succeeds if no file is refused and the last name leads somewhere, and only then. -/
theorem Ends.eq_ok_iff (h : Ends tried dir action refused nowhere meanwhile names result) :
    result = .ok () ↔
      (∀ name ∈ names, ¬ refused name) ∧ ∀ last ∈ names.getLast?, ¬ nowhere last := by
  cases h with
  | stopped hbefore h => exact ⟨nofun, fun ⟨hnone, _⟩ => absurd h (hnone _ (by simp))⟩
  | unlisted hnone hlast h => exact ⟨nofun, fun ⟨_, hfound⟩ => absurd h (hfound _ hlast)⟩
  | done hnone hlast => exact ⟨fun _ => ⟨hnone, hlast⟩, fun _ => rfl⟩

/-- The first of the names that are refused. -/
theorem exists_first_refused {name : Text} (hname : name ∈ names) (h : refused name) :
    ∃ before first rest, names = before ++ first :: rest ∧ refused first ∧
      ∀ other ∈ before, ¬ refused other := by
  induction names with
  | nil => cases hname
  | cons head rest ih =>
    by_cases hhead : refused head
    · exact ⟨[], head, rest, rfl, hhead, nofun⟩
    obtain rfl | hrest := List.mem_cons.mp hname
    · exact absurd h hhead
    obtain ⟨before, first, rest, rfl, hfirst, hbefore⟩ := ih hrest
    exact ⟨head :: before, first, rest, rfl, hfirst, List.forall_mem_cons.mpr ⟨hhead, hbefore⟩⟩

/-- A task that acts on the files of a directory, where it does not matter to what is found and what
is refused which files have been acted on before. -/
theorem ends_of_forFiles (hlist : s.files.list dir = .ok names)
    (hbegin : ∀ done, meanwhile done s.files)
    (hrefused : ∀ done ⊆ names, ∀ name ∈ names, ∀ fs, meanwhile done fs → refused name →
      fs.isFile (Path.join dir name) = true ∧ ∃ e fs', ((action name).run fs).run = (.error e, fs'))
    (hact : ∀ done ⊆ names, ∀ name ∈ done, ∀ fs, meanwhile done fs → ¬ refused name →
      fs.isFile (Path.join dir name) = true →
      ∃ fs', ((action name).run fs).run = (.ok (), fs') ∧ meanwhile done fs')
    (hnowhere : ∀ done ⊆ names, ∀ name ∈ names, ∀ fs, meanwhile done fs →
      (nowhere name ↔ fs.doesExist (Path.join dir name) = false)) :
    Ends tried dir action refused nowhere meanwhile names
      ((forFiles dir fun name => attempt tried (Path.join dir name) (action name)).run s).run.1 := by
  -- Up to a file that is refused, a visit goes on.
  have hvisit (before : List Text) (hsub : before ⊆ names)
      (hnone : ∀ name ∈ before, ¬ refused name) :
      ∃ left after, ((visit dir (fun name => attempt tried (Path.join dir name) (action name)) none
          before).run s).run = (.ok left, after) ∧ meanwhile before after.files ∧
        (before = [] ∧ left = none ∨ ∃ last ∈ before.getLast?, ∃ between : Session,
          meanwhile before between.files ∧ left = between.files.refusal? (Path.join dir last)) :=
    visit_ends (I := fun s => meanwhile before s.files)
      (fun name hname s l mode content hs hstatus => by
        have hfile : s.files.isFile (Path.join dir name) = true := by
          unfold isFile
          rw [hstatus]
          rfl
        obtain ⟨fs', hrun, hfs'⟩ := hact before hsub name hname s.files hs (hnone name hname) hfile
        exact ⟨{ s with files := fs' }, by rw [run_attempt, hrun], hfs'⟩) (hbegin before) none
  rw [run_forFiles hlist]
  by_cases hnone : ∀ name ∈ names, ¬ refused name
  · obtain ⟨left, after, hrun, -, hleft⟩ := hvisit names (List.Subset.refl names) hnone
    rw [hrun]
    cases left with
    | none =>
      refine .done hnone fun last hlast hmiss => ?_
      obtain ⟨rfl, -⟩ | ⟨last', hlast', between, hbetween, hfound⟩ := hleft
      · cases hlast
      · obtain rfl := Option.mem_unique hlast hlast'
        have hexists := refusal?_eq_none_iff.mp hfound.symm
        have hmem := List.mem_of_mem_getLast? hlast
        rw [(hnowhere names (List.Subset.refl names) last hmem _ hbetween).mp hmiss] at hexists
        cases hexists
    | some e =>
      obtain ⟨-, hleft⟩ | ⟨last, hlast, between, hbetween, hfound⟩ := hleft
      · cases hleft
      · have hstatus := refusal?_eq_some_iff.mp hfound.symm
        have hmem := List.mem_of_mem_getLast? hlast
        refine .unlisted hnone hlast ?_ hbetween hstatus
        rw [hnowhere names (List.Subset.refl names) last hmem _ hbetween]
        unfold doesExist
        rw [hstatus]
        rfl
  · obtain ⟨any, hmem, hany⟩ : ∃ name ∈ names, refused name := by simpa using hnone
    obtain ⟨before, name, rest, rfl, hname, hbefore⟩ := exists_first_refused hmem hany
    have hsub : before ⊆ before ++ name :: rest := List.subset_append_left _ _
    obtain ⟨left, between, hrun, hbetween, -⟩ := hvisit before hsub hbefore
    obtain ⟨hfile, e, fs', hstop⟩ :=
      hrefused before hsub name (by simp) between.files hbetween hname
    obtain ⟨l, mode, content, hstatus⟩ := exists_status_of_isFile hfile
    rw [run_visit_append, run_bind, hrun]
    dsimp only
    rw [run_visit_cons, hstatus]
    dsimp only
    rw [run_bind, run_attempt, hstop]
    exact .stopped hbefore hname hbetween hstop

end Ends

end Staging

end NativeBuild
