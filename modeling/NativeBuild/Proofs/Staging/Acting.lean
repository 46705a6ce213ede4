import NativeBuild.Proofs.Staging.Policy

/-!
# Tasks that act on files alone

Many tasks look at nothing but the files, and change nothing else: they do not log, and it does not
matter to them who does. So what they do is known once it is known of a session without logs.
-/
namespace NativeBuild

namespace Staging

variable {α β : Type}

/-- A task looks at nothing but the files, and changes nothing else: what it does in a session is known
from any other with the same files. -/
def ActsOnFiles (task : Job α) : Prop := ∀ s t : Session, s.files = t.files →
  (task.run s).run = ((task.run t).run.1, { s with files := (task.run t).run.2.files })

namespace ActsOnFiles

variable {task : Job α}

/-- The task does the same in every session with these files. -/
theorem run_eq (h : ActsOnFiles task) {s after : Session} {a : α}
    (hrun : (task.run s).run = (.ok a, after)) (other : Session) (hfiles : other.files = s.files) :
    (task.run other).run = (.ok a, { other with files := after.files }) := by
  rw [h other s hfiles, hrun]

theorem pure (a : α) : ActsOnFiles (Pure.pure a) := by
  rintro s t hfiles
  exact Prod.ext rfl (congrArg (fun files => { s with files }) hfiles)

theorem throw (failure : Failure) : ActsOnFiles (MonadExcept.throw failure : Job α) := by
  rintro s t hfiles
  exact Prod.ext rfl (congrArg (fun files => { s with files }) hfiles)

theorem bind (h : ActsOnFiles task) {k : α → Job β} (hk : ∀ a, ActsOnFiles (k a)) :
    ActsOnFiles (task >>= k) := by
  intro s t hfiles
  rw [run_bind, run_bind, h s t hfiles]
  cases (task.run t).run with
  | mk result between =>
    cases result with
    | ok a => exact hk a { s with files := between.files } between rfl
    | error failure => rfl

/-- What is done with a session that has been asked for depends on its files alone. -/
theorem get_bind {k : Session → Job α} (h : ∀ s, ActsOnFiles (k s))
    (hk : ∀ s t : Session, s.files = t.files → k s = k t) : ActsOnFiles (get >>= k) := by
  intro s t hfiles
  rw [run_get_bind, run_get_bind, hk s t hfiles]
  exact h t s t hfiles

theorem forM {f : α → Job Unit} (h : ∀ a, ActsOnFiles (f a)) (items : List α) :
    ActsOnFiles (items.forM f) := by
  induction items with
  | nil => exact .pure ()
  | cons item items ih => exact (h item).bind fun _ => ih

end ActsOnFiles

variable {dir : Path}

theorem actsOnFiles_attempt (tried : String) (p : Path) (action : FileAction α) :
    ActsOnFiles (attempt tried p action) := by
  intro s t hfiles
  rw [run_attempt, run_attempt, hfiles]
  cases (action.run t.files).run with
  | mk result files =>
    cases result with
    | ok a => rfl
    | error e => rfl

theorem actsOnFiles_visit {act : Text → Job Unit} (h : ∀ name, ActsOnFiles (act name))
    (left : Option FileError) (names : List Text) : ActsOnFiles (visit dir act left names) := by
  induction names generalizing left with
  | nil => exact .pure left
  | cons name rest ih =>
    unfold visit
    apply ActsOnFiles.get_bind
    · intro s
      split
      · exact (h name).bind fun _ => ih none
      · exact ih none
      · exact ih _
    · intro s t hfiles
      rw [hfiles]

theorem actsOnFiles_forFiles {act : Text → Job Unit} (h : ∀ name, ActsOnFiles (act name)) :
    ActsOnFiles (forFiles dir act) := by
  refine (actsOnFiles_attempt _ _ _).bind fun names => ?_
  refine (actsOnFiles_visit h none names).bind fun left => ?_
  cases left with
  | none => exact .pure ()
  | some e => exact .throw _

theorem actsOnFiles_allowWriting (dir : Path) : ActsOnFiles (allowWriting dir) := by
  unfold allowWriting
  apply ActsOnFiles.get_bind
  · intro s
    split
    · exact actsOnFiles_forFiles fun name => actsOnFiles_attempt _ _ _
    · exact .pure ()
  · intro s t hfiles
    rw [hfiles]

theorem actsOnFiles_ensureDirectory (dir : Path) : ActsOnFiles (ensureDirectory dir) :=
  actsOnFiles_attempt _ _ _

theorem actsOnFiles_recreate (dir : Path) : ActsOnFiles (recreate dir) := by
  have hmake := actsOnFiles_ensureDirectory dir
  unfold recreate
  apply ActsOnFiles.get_bind
  · intro s
    split
    · exact (actsOnFiles_allowWriting dir).bind fun _ =>
        (actsOnFiles_attempt _ _ _).bind fun _ => hmake
    · exact hmake
  · intro s t hfiles
    rw [hfiles]

end Staging

end NativeBuild
