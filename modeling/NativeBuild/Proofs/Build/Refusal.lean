import NativeBuild.Proofs.Build.Trace
import NativeBuild.Build.Pipeline
import NativeBuild.Proofs.Path.Spelling

/-!
# Directories that must not be the same

A build would wipe its cache if it were its temporary directory, and a link would read what it
writes if the cache it reads were its own. Both are refused before anything happens, in whichever
way the two directories are spelled.
-/
namespace NativeBuild.Plan

open Build
open NativeBuild.Path (Respelled sameIgnoringCase)

variable (p : Plan) {s : State}

theorem exec_init_of_same (h : sameIgnoringCase s.session.here p.paths.temp p.paths.cache = true) :
    exec p.init s = (.error (.failed (.configuration
      (utf8 "the temp folder cannot be the same as the build cache directory") p.paths.temp)), s) := by
  unfold init
  rw [exec_bind_ok (exec_get s), if_pos h]
  exact exec_bind_error rfl

theorem exec_runCompileLink_of_same {source : Path}
    (h : sameIgnoringCase s.session.here source p.paths.cache = true) :
    exec (p.runCompileLink source) s = (.error (.failed (.configuration
      (utf8 "the source cache directory cannot be the same as the build cache directory")
      source)), s) := by
  unfold runCompileLink
  rw [exec_bind_ok (exec_get s), if_pos h]
  rfl

/-- The comparison of directories is an equivalence that takes every spelling of a directory for
that directory. So a plan whose temporary directory is its cache, and a link that would read the
cache it writes, are refused whatever the spelling, and nothing has happened by then. -/
theorem refuses_respelled {here : Path} (hhere : Path.isAbsolute here = true) :
    Equivalence (fun a b => sameIgnoringCase here a b = true) ∧
      (∀ a b, Relation.EqvGen (Respelled here) a b → sameIgnoringCase here a b = true) ∧
      ∀ (p : Plan) (s : State), s.session.here = here →
        (Relation.EqvGen (Respelled here) p.paths.temp p.paths.cache →
          exec p.init s = (.error (.failed (.configuration
            (utf8 "the temp folder cannot be the same as the build cache directory")
            p.paths.temp)), s)) ∧
        ∀ source, Relation.EqvGen (Respelled here) source p.paths.cache →
          exec (p.runCompileLink source) s = (.error (.failed (.configuration
            (utf8 "the source cache directory cannot be the same as the build cache directory")
            source)), s) := by
  refine ⟨Path.sameIgnoringCase_equivalence here, fun a b h => Path.same_of_respelled hhere h, ?_⟩
  rintro p s rfl
  exact ⟨fun h => p.exec_init_of_same (Path.same_of_respelled hhere h),
    fun source h => p.exec_runCompileLink_of_same (Path.same_of_respelled hhere h)⟩

/-- A cache that is named from the current directory, and a temporary directory that is named from
the root, over a directory and back, in other letters and with a slash at the end. -/
def respelledPlan : Plan where
  options := {}
  paths := { temp := utf8 "/x/../Cache/", cache := utf8 "cache", staging := utf8 "/s" }
  generator := utf8 "/g"
  launcher := fun _ _ _ => {}

theorem refuses_respelled_of_fromRoot :
    Path.isAbsolute (Session.here {}) = true ∧
      exec respelledPlan.init { session := {} } = (.error (.failed (.configuration
        (utf8 "the temp folder cannot be the same as the build cache directory")
        (utf8 "/x/../Cache/"))), { session := {} }) ∧
      exec (respelledPlan.runCompileLink (utf8 "/x/../Cache/")) { session := {} }
        = (.error (.failed (.configuration
          (utf8 "the source cache directory cannot be the same as the build cache directory")
          (utf8 "/x/../Cache/"))), { session := {} }) := by
  have hhere : Path.isAbsolute (Session.here {}) = true := rfl
  have hrooted : Respelled (Session.here {}) (utf8 "cache") (utf8 "/cache") :=
    .absolute (by decide +kernel)
  have hback : Respelled (Session.here {}) (utf8 "/cache") (utf8 "/x/../cache") :=
    .within [] (@Path.Detour.back (utf8 "x") (by unfold Path.IsOrdinary; decide +kernel))
      (utf8 "cache")
  have hletters : Respelled (Session.here {}) (utf8 "/x/../cache") (utf8 "/x/../Cache") :=
    .letters (by decide +kernel) (by decide +kernel)
  have hclosed : Respelled (Session.here {}) (utf8 "/x/../Cache") (utf8 "/x/../Cache/") :=
    .closed (by decide +kernel)
  have hspelled : Relation.EqvGen (Respelled (Session.here {})) (utf8 "/x/../Cache/")
      (utf8 "cache") := by
    refine .symm _ _ (.trans _ _ _ (.rel _ _ hrooted) (.trans _ _ _ (.rel _ _ hback) ?_))
    exact .trans _ _ _ (.rel _ _ hletters) (.rel _ _ hclosed)
  obtain ⟨-, -, hrefused⟩ := refuses_respelled hhere
  obtain ⟨hinit, hlink⟩ := hrefused respelledPlan { session := {} } rfl
  exact ⟨hhere, hinit hspelled, hlink _ hspelled⟩

end NativeBuild.Plan
