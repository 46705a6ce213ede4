import NativeBuild.Proofs.Build.Staged

/-!
# What staging keeps

Staging wipes the generated sources of the temporary directory, and writes in the other trees that
it publishes. Every file that lies elsewhere is kept, so a cache that meets none of the trees is
kept as a whole. A cache inside of the generated sources is another directory than the temporary
one, and is lost nonetheless.
-/
namespace NativeBuild

open FileSystem BuildPaths

/-- Files may go, or become others, in the published trees only. -/
def BuildPaths.keeping (paths : BuildPaths) (start : FileSystem) (places : List Location) :
    Policy where
  start
  places
  may l e e' := ¬ paths.Published start.here l → l ∉ places →
    ∀ mode content, e = some (.file mode content) → e' = e
  refl _ _ _ _ _ _ _ := rfl
  trans l e e' e'' h h' hl hlog mode content he := by
    obtain rfl := h hl hlog mode content he
    exact h' hl hlog mode content he
  logs l hl _ _ _ _ hlog := absurd hl hlog

namespace Plan

open Build

variable {p : Plan} {fs : FileSystem} {places : List Location} {l root : Location}

theorem free_keeping (hl : p.paths.Published fs.here l) : (p.paths.keeping fs places).Free l :=
  fun _ _ hnot => absurd hl hnot

theorem freeBelow_keeping (hroot : p.paths.Root fs.here root) :
    (p.paths.keeping fs places).FreeBelow root := fun _ hl => free_keeping ⟨root, hroot, hl⟩

/-- A directory is made where no file stands. -/
theorem mayMake_keeping (l : Location) : (p.paths.keeping fs places).MayMake l := by
  intro _ _ _ _ _ mode content he
  cases he

theorem permitsStaging_keeping (hzeroTemp : 0 ∉ p.paths.temp) (hzeroStaging : 0 ∉ p.paths.staging) :
    p.PermitsStaging (p.paths.keeping fs places) where
  zeroTemp := hzeroTemp
  zeroStaging := hzeroStaging
  native := freeBelow_keeping .native
  generated := freeBelow_keeping .generated
  data _ hname _ _ := (free_keeping ⟨_, .data hname, List.prefix_append _ _⟩).mayWrite
  reachNative _ _ := mayMake_keeping _
  reachGenerated _ _ := mayMake_keeping _
  reachData _ _ _ _ := mayMake_keeping _

/-- A cache with generated sources that lies in those of the temporary directory, where these can be
wiped. -/
structure Nested (p : Plan) (s : Session) : Prop where
  zeroCache : 0 ∉ p.paths.cache
  inside : generatedIn (p.paths.tempAt s.files.here) <+: p.paths.cacheAt s.files.here
  native : s.files.isDirectory (Staging.native p.paths.cache) = false
  source : s.files.isDirectory (Staging.generated s.here p.paths.cache) = true
  temp : s.files.directoryAt (p.paths.tempAt s.files.here) = true
  target : s.files.isDirectory (Staging.generated s.here p.paths.temp) = true
  short : ∀ file, s.files.get? (generatedIn (p.paths.tempAt s.files.here) ++ [file]) ≠ none →
    (Path.join (Staging.generated s.here p.paths.temp) file).length < maxPath

section Nested

variable {s : Session} (h : p.Nested s) (hplain : s.files.Plain) (hzeroTemp : 0 ∉ p.paths.temp)
include h hplain hzeroTemp

/-- The generated sources of the temporary directory are wiped, with all below. -/
theorem Nested.wipes :
    ∃ wiped, ((Staging.recreate (Staging.generated s.here p.paths.temp)).run s).run = (.ok (), wiped) ∧
      wiped.files.Plain ∧ wiped.files.here = s.files.here ∧
      ∀ l, generatedIn (p.paths.tempAt s.files.here) <+: l → wiped.files.get? l = none ∨
        l = generatedIn (p.paths.tempAt s.files.here) ∧ wiped.files.directoryAt l = true := by
  have hname := Staging.isName_generated
  have htemp := (Path.leads s.files.here hzeroTemp).absoluteNormal hplain.here
  obtain ⟨hreaches, -, hthere⟩ := (hplain.isDirectory_join_iff htemp.zero hname).mp h.target
  obtain ⟨wiped, hrecreate⟩ := Staging.recreate_succeeds hplain htemp.zero hname h.target
    (by rw [htemp.location]; exact h.temp) (by rw [htemp.left]; simp)
    (by rw [htemp.location]; exact h.short)
  have hfresh := Staging.rebuilds_of_recreate hplain htemp.zero hname (by rw [htemp.left]; simp)
    (fun _ => hreaches) (fun hnone => by
      rw [directoryAt, hnone] at hthere
      cases hthere) hrecreate
  rw [htemp.location] at hfresh
  refine ⟨wiped, hrecreate, hfresh.plain, hfresh.here, ?_⟩
  rintro l ⟨rel, rfl⟩
  cases rel with
  | nil =>
    rw [List.append_nil, ← view_directoryAt_nil]
    exact .inr ⟨rfl, congrArg (View.directoryAt · []) hfresh.inside⟩
  | cons name rest => exact .inl (congrFun hfresh.inside (name :: rest))

/-- The generated sources of the cache are wiped with them, and not found any more then. -/
theorem Nested.publish_fails :
    ∃ wiped, ((p.publish s.here).run s).run = (.error (.files (utf8 "source directory missing")
        (Staging.generated s.here p.paths.cache)), wiped) ∧
      ∀ l mode content, p.paths.cacheAt s.files.here <+: l →
        wiped.files.get? l ≠ some (.file mode content) := by
  have hname := Staging.isName_generated
  have hcache := (Path.leads s.files.here h.zeroCache).absoluteNormal hplain.here
  obtain ⟨wiped, hrecreate, hwipedPlain, hhere, hwiped⟩ := h.wipes hplain hzeroTemp
  have hsource : wiped.files.isDirectory (Staging.generated s.here p.paths.cache) = false := by
    rw [← Bool.not_eq_true]
    intro hfound
    -- What is left of the wiped tree is its root, and the source stood below.
    obtain ⟨-, -, hdirectory⟩ := (hwipedPlain.isDirectory_join_iff hcache.zero hname).mp hfound
    rw [hhere, hcache.location] at hdirectory
    obtain hnone | ⟨heq, -⟩ := hwiped (generatedIn (p.paths.cacheAt s.files.here))
      (h.inside.trans (List.prefix_append _ _))
    · cases hdirectory.symm.trans (congrArg (Option.any Entry.isDirectory) hnone)
    · exact not_name_isPrefix _ _ (heq ▸ h.inside)
  have hnative : (p.placeNative.run s).run = (.ok (), s) := by
    rw [placeNative, Staging.run_doIf, h.native]
    rfl
  have hplace : ((p.placeGenerated s.here).run s).run =
      (.error (.files (utf8 "source directory missing") (Staging.generated s.here p.paths.cache)),
        wiped) := by
    rw [placeGenerated, run_bind_ok hrecreate, Staging.copyTree, run_get_bind, hsource]
    rfl
  refine ⟨wiped, ?_, fun l mode content hl hfile => ?_⟩
  · rw [publish, run_bind_ok hnative, Staging.run_doIf, if_pos h.source, run_bind, hplace]
  · obtain hnone | ⟨-, hdirectory⟩ := hwiped l (h.inside.trans hl)
    · cases hnone.symm.trans hfile
    · cases hdirectory.symm.trans (congrArg (Option.any Entry.isDirectory) hfile)

end Nested

/-- However staging ends, every file outside of the published trees is kept, in the cache as well
as elsewhere, but for open logs. A cache that lies in the generated sources of the temporary
directory is lost. -/
theorem stage_keeps_files (p : Plan) (s : State) (hplain : s.session.files.Plain)
    (hzeroTemp : 0 ∉ p.paths.temp) (hzeroStaging : 0 ∉ p.paths.staging) :
    (∀ l mode content, s.session.files.get? l = some (.file mode content) →
      ¬ p.paths.Published s.session.files.here l → l ∉ s.session.logPlaces →
      (exec p.stage s).2.session.files.get? l = some (.file mode content)) ∧
    (p.Nested s.session → (exec p.stage s).1 ≠ .ok () ∧
      ∀ l mode content, p.paths.cacheAt s.session.files.here <+: l →
        (exec p.stage s).2.session.files.get? l ≠ some (.file mode content)) := by
  refine ⟨fun l mode content hfile hnot hlog => ?_, fun h => ?_⟩
  · have hstart : (p.paths.keeping s.session.files s.session.logPlaces).HoldsFor s :=
      ⟨⟨hplain, rfl, fun l => Policy.refl _ l _⟩, rfl⟩
    have hafter := (permitsStaging_keeping hzeroTemp hzeroStaging).preserves_stage s hstart
    exact (hafter.files.may l hnot hlog mode content hfile).trans hfile
  · obtain ⟨wiped, hpublish, hlost⟩ := h.publish_fails hplain hzeroTemp
    rw [stage_eq_perform, exec_bind_ok (exec_get s), exec_perform, hpublish]
    exact ⟨nofun, hlost⟩

/-- A plan whose cache lies in the generated sources of the temporary directory. -/
def nestedPlan : Plan where
  options := {}
  paths := { temp := utf8 "/t", cache := utf8 "/t/il2cppOutput/c", staging := utf8 "/s" }
  generator := utf8 "/g"
  launcher := fun _ _ _ => {}

/-- A cache with a generated source, and a file beside. -/
def nestedCache : State where
  session :=
    { files :=
        { entries :=
            [([utf8 "t"], .directory 0o755), ([utf8 "t", utf8 "keep.txt"], .file 0o644 (utf8 "y")),
              ([utf8 "t", utf8 "il2cppOutput"], .directory 0o755),
              ([utf8 "t", utf8 "il2cppOutput", utf8 "c"], .directory 0o755),
              ([utf8 "t", utf8 "il2cppOutput", utf8 "c", utf8 "il2cppOutput"], .directory 0o755),
              ([utf8 "t", utf8 "il2cppOutput", utf8 "c", utf8 "il2cppOutput", utf8 "a.cpp"],
                .file 0o644 (utf8 "x"))] } }

theorem nested_nestedPlan : nestedPlan.Nested nestedCache.session where
  zeroCache := by decide +kernel
  inside := by decide +kernel
  native := by decide +kernel
  source := by decide +kernel
  temp := by decide +kernel
  target := by decide +kernel
  short file hfile := by
    have hshort : ∀ e ∈ nestedCache.session.files.entries, ∀ name ∈ e.1.getLast?,
        (Path.join (Staging.generated nestedCache.session.here nestedPlan.paths.temp) name).length <
          maxPath := by decide +kernel
    obtain ⟨e, hget⟩ := Option.ne_none_iff_exists'.mp hfile
    exact hshort _ (mem_of_get? (by simp) hget) file (by simp)

/-- The plan is accepted, the source in its cache is lost, and the file beside is kept. -/
theorem stage_keeps_files_beside_nestedCache :
    (exec nestedPlan.init nestedCache).1.isOk = true ∧
      (exec nestedPlan.stage nestedCache).2.session.files.get?
        [utf8 "t", utf8 "il2cppOutput", utf8 "c", utf8 "il2cppOutput", utf8 "a.cpp"]
          ≠ some (.file 0o644 (utf8 "x")) ∧
      (exec nestedPlan.stage nestedCache).2.session.files.get? [utf8 "t", utf8 "keep.txt"] =
        some (.file 0o644 (utf8 "y")) := by
  obtain ⟨hkept, hlost⟩ := nestedPlan.stage_keeps_files nestedCache
    (plain_of_entries (by decide +kernel) (by decide +kernel)) (by decide +kernel)
    (by decide +kernel)
  refine ⟨by decide +kernel, ?_, ?_⟩
  · exact (hlost nested_nestedPlan).2 _ _ _ (by decide +kernel)
  · refine hkept _ _ _ (by decide +kernel) ?_ (by decide +kernel)
    rintro ⟨root, hroot, hin⟩
    cases hroot with
    | generated => exact absurd hin (by decide +kernel)
    | native => exact absurd hin (by decide +kernel)
    | data hname =>
      obtain rfl | rfl := hname
      · exact absurd hin (by decide +kernel)
      · exact absurd hin (by decide +kernel)

end Plan

end NativeBuild
