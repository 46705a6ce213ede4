import NativeBuild.Proofs.Build.Generation
import NativeBuild.Proofs.Build.Trees

/-!
# Nothing is published before staging

A build that stops before it stages has changed none of the published trees: the work before staging
may make, write and remove in the cache and beside the trees, but never in them. The stamp of the
cache is written behind the run of the generator that converts the assemblies, and only if that run
ended well.
-/
namespace NativeBuild

open FileSystem BuildPaths

namespace BuildPaths

variable (paths : BuildPaths) (here : Location)

/-- A change in the cache, but for its stamp, and of files directly in the managed directory. -/
structure Confined (before after : FileSystem) : Prop where
  plain : after.Plain
  /-- The current directory stays. -/
  stays : after.here = before.here
  get?_eq_or : ∀ l, after.get? l = before.get? l ∨
    (paths.cacheAt here <+: l ∧ l ≠ paths.stampAt here) ∨
    ((∃ name, l = paths.managedAt here ++ [name]) ∧
      before.directoryAt l = false ∧ after.directoryAt l = false)

/-- Whatever it is done to, the change is confined. -/
def Confines (change : FileSystem → FileSystem) : Prop :=
  ∀ fs, fs.Plain → fs.here = here → paths.Confined here fs (change fs)

/-- The published trees are as before, but for the content of open logs. -/
structure KeepsTrees (places : List Location) (before after : FileSystem) : Prop where
  /-- The generated sources of the temporary directory and the native libraries. -/
  generated : ∀ l, generatedIn (paths.tempAt here) <+: l → l ∉ places →
    after.get? l = before.get? l
  native : ∀ l, nativeIn (paths.stagingAt here) <+: l → l ∉ places → after.get? l = before.get? l
  /-- The data files, wherever there is a directory for them. -/
  data : ∀ name, IsData name →
    after.directoryAt (paths.managedAt here ++ [name]) =
      before.directoryAt (paths.managedAt here ++ [name]) ∧
    (before.directoryAt (paths.managedAt here ++ [name]) = true →
      ∀ l, paths.managedAt here ++ [name] <+: l → l ∉ places → after.get? l = before.get? l)

/-- Nothing may become of the published trees, but files may change where directories for data files
belong. -/
def sealing (start : FileSystem) (places : List Location) : Policy where
  start
  places
  may l e e' := paths.Published start.here l → e' = e ∨
    ((l ∈ places ∨ ∃ name, IsData name ∧ l = paths.managedAt start.here ++ [name]) ∧
      e.any Entry.isDirectory = false ∧ e'.any Entry.isDirectory = false)
  refl _ _ _ := .inl rfl
  trans l e e' e'' h h' hl := by
    obtain rfl | ⟨hloose, he, he'⟩ := h hl
    · exact h' hl
    · obtain rfl | ⟨-, -, he''⟩ := h' hl
      · exact .inr ⟨hloose, he, he'⟩
      · exact .inr ⟨hloose, he, he''⟩
  logs l hl _ _ _ _ := .inr ⟨.inl hl, rfl, rfl⟩

/-- Nothing may become of the content of the stamp. -/
def stampKeeping (start : FileSystem) (places : List Location) : Policy where
  start
  places
  may l e e' := l = paths.stampAt start.here → l ∉ places →
    contentOf e' = contentOf e
  refl _ _ _ _ := rfl
  trans _ _ _ _ h h' hl hlog := (h' hl hlog).trans (h hl hlog)
  logs _ hl _ _ _ _ hlog := absurd hl hlog

end BuildPaths

/-- The setting of a build whose collaborators and processes keep to the cache and to the files
directly in the managed directory. A path may leave a published tree again only if it leaves a
directory there: otherwise it would lead nowhere before the build, and making its way would make a
directory in the tree. -/
structure Plan.Restrained (p : Plan) (fs : FileSystem) : Prop where
  plain : fs.Plain
  zeroTemp : 0 ∉ p.paths.temp
  zeroCache : 0 ∉ p.paths.cache
  zeroStaging : 0 ∉ p.paths.staging
  zeroSources : ∀ source ∈ p.options.additionalSources, 0 ∉ source
  disjoint : p.paths.Disjoint fs.here
  wayTemp : ∀ l ∈ Path.left fs.here p.paths.temp, p.paths.Published fs.here l →
    fs.directoryAt l = true
  wayCache : ∀ l ∈ Path.left fs.here p.paths.cache, p.paths.Published fs.here l →
    fs.directoryAt l = true
  stripper : ∀ strip, p.collaborators.stripper ≠ some (.custom strip)
  /-- The native builder is the generator, with its own cache in the cache, or with none. -/
  builder : ∀ builder ∈ p.collaborators.nativeBuilder, ∃ n : NativeLibrary, builder = n.builder ∧
    (n.cache = [] ∨ 0 ∉ n.cache ∧ p.paths.cacheAt fs.here <+: Path.location fs.here n.cache ∧
      ∀ l ∈ Path.left fs.here n.cache, p.paths.Published fs.here l → fs.directoryAt l = true)
  usedTypes : ∀ query ∈ p.collaborators.usedTypes,
    p.paths.Confines fs.here fun fs => (query fs).change fs
  linker : ∀ query ∈ p.collaborators.linker,
    p.paths.Confines fs.here fun fs => (query fs).change fs
  provider : ∀ query ∈ p.collaborators.extraTypes,
    p.paths.Confines fs.here fun fs => (query fs).change fs
  moreSources : ∀ query ∈ p.collaborators.moreSources, ∀ dir,
    p.paths.Confines fs.here fun fs => (query dir fs).change fs
  progress : ∀ callback ∈ p.collaborators.progress, ∀ told,
    p.paths.Confines fs.here fun fs => (callback told fs).change fs
  diagnostics : ∀ sink ∈ p.collaborators.diagnostics, ∀ d,
    p.paths.Confines fs.here fun fs => (sink d fs).change fs
  launcher : ∀ number spec fs' edit, .change edit ∈ (p.launcher number spec fs').steps →
    p.paths.Confines fs.here edit

namespace Plan.Restrained

variable {p : Plan} {fs : FileSystem} (h : p.Restrained fs)
include h

section Sealing

variable {places : List Location} {l : Location}

omit h in
theorem free_of_not_published (hl : ¬ p.paths.Published fs.here l) :
    (p.paths.sealing fs places).Free l := fun _ _ hpublished => absurd hpublished hl

omit h in
/-- Nothing is made where a directory stands. -/
theorem mayMake_of_left
    (hl : p.paths.Published fs.here l → fs.directoryAt l = true) :
    (p.paths.sealing fs places).MayMake l := by
  intro now hnow hfree hpublished
  have hdirectory : (fs.get? l).any Entry.isDirectory = true := hl hpublished
  obtain hsame | ⟨-, hnone, -⟩ := hnow.may l hpublished
  · have hstart : now.get? l = fs.get? l := hsame
    rw [← hstart, hfree] at hdirectory
    cases hdirectory
  · cases hnone.symm.trans hdirectory

theorem allows_sealing {change : FileSystem → FileSystem} (hchange : p.paths.Confines fs.here change) :
    (p.paths.sealing fs places).Allows change := by
  intro now hnow
  obtain ⟨hplain, hstays, hget⟩ := hchange now hnow.plain hnow.here
  refine hnow.step hplain hstays fun l hpublished => ?_
  obtain hsame | ⟨hcache, -⟩ | ⟨⟨name, rfl⟩, hbefore, hafter⟩ := hget l
  · exact .inl hsame
  · exact absurd hpublished (h.disjoint.not_published_of_cache hcache)
  · exact .inr ⟨.inr ⟨name, h.disjoint.root_of_managed hpublished, rfl⟩, hbefore, hafter⟩

theorem permits_sealing (places : List Location) : p.Permits (p.paths.sealing fs places) where
  zeroTemp := h.zeroTemp
  zeroCache := h.zeroCache
  zeroStaging := h.zeroStaging
  zeroSources := h.zeroSources
  temp l hl := by
    obtain hl | hl := hl
    · refine (free_of_not_published ?_).mayMake
      exact h.disjoint.not_published_of_temp (show [] ≠ utf8 "il2cppOutput" by decide)
        (hl.trans (List.prefix_append _ _))
    · exact mayMake_of_left (h.wayTemp l hl)
  reach l hl := by
    obtain hl | hl := hl
    · exact (free_of_not_published (h.disjoint.not_published_above_cache hl)).mayMake
    · exact mayMake_of_left (h.wayCache l hl)
  cache l hl _ := free_of_not_published (h.disjoint.not_published_of_cache hl)
  stamp :=
    have hfree := free_of_not_published
      (h.disjoint.not_published_of_cache (l := p.paths.stampAt fs.here) (List.prefix_append _ _))
    ⟨hfree.mayMake, hfree.mayWrite.mayTouch⟩
  extraTypes := (free_of_not_published (h.disjoint.not_published_of_temp (by decide)
    List.prefix_rfl)).mayWrite
  managed name _ mode mode' content hpublished :=
    .inr ⟨.inr ⟨name, h.disjoint.root_of_managed hpublished, rfl⟩, rfl, rfl⟩
  preserved dir hdir := by
    obtain rfl | rfl := hdir
    · exact (free_of_not_published (h.disjoint.not_published_of_staging (by decide)
        (by decide) List.prefix_rfl)).mayWrite
    · refine (free_of_not_published fun hpublished => ?_).mayWrite
      exact absurd (h.disjoint.root_of_managed hpublished) (by unfold IsData; decide)
  stripper := h.stripper
  builder builder hbuilder := by
    obtain ⟨n, rfl, hcache⟩ := h.builder builder hbuilder
    refine ⟨n, rfl, hcache.imp_right fun ⟨hzero, hinside, hleft⟩ => ⟨hzero, hinside, ?_⟩⟩
    exact fun l hl => mayMake_of_left (hleft l hl)
  usedTypes query hquery := h.allows_sealing (h.usedTypes query hquery)
  linker query hquery := h.allows_sealing (h.linker query hquery)
  provider query hquery := h.allows_sealing (h.provider query hquery)
  moreSources query hquery dir := h.allows_sealing (h.moreSources query hquery dir)
  progress callback hcallback told := h.allows_sealing (h.progress callback hcallback told)
  diagnostics sink hsink d := h.allows_sealing (h.diagnostics sink hsink d)
  launcher number spec now edit hedit := h.allows_sealing (h.launcher number spec now edit hedit)

end Sealing

section Stamp

variable {places : List Location} {l : Location}

omit h in
theorem free_of_ne_stamp (hl : l ≠ p.paths.stampAt fs.here) :
    (p.paths.stampKeeping fs places).Free l := fun _ _ heq => absurd heq hl

omit h in
/-- A directory has no content. -/
theorem mayMake_anything (l : Location) : (p.paths.stampKeeping fs places).MayMake l :=
  fun _ _ _ _ _ => rfl

omit h in
/-- Making a file writable does not change its content. -/
theorem mayTouch_anything (l : Location) : (p.paths.stampKeeping fs places).MayTouch l :=
  fun _ _ _ _ _ => rfl

omit h in
theorem free_of_name {dir : Location} {name : Text} (hname : name ≠ Staging.stampFile) :
    (p.paths.stampKeeping fs places).Free (dir ++ [name]) :=
  free_of_ne_stamp fun heq => hname (List.singleton_inj.mp (List.append_inj_right' heq rfl))

/-- The stamp lies apart from the temporary directory and the staging area. -/
theorem free_of_outside (hl : p.paths.tempAt fs.here <+: l ∨ p.paths.stagingAt fs.here <+: l) :
    (p.paths.stampKeeping fs places).Free l := by
  refine free_of_ne_stamp ?_
  rintro rfl
  have hcache : p.paths.cacheAt fs.here <+: p.paths.stampAt fs.here := List.prefix_append _ _
  exact hl.elim (fun htemp => h.disjoint.tempCache.not_both htemp hcache)
    (fun hstaging => h.disjoint.cacheStaging.not_both hcache hstaging)

theorem allows_stampKeeping {change : FileSystem → FileSystem}
    (hchange : p.paths.Confines fs.here change) : (p.paths.stampKeeping fs places).Allows change := by
  intro now hnow
  obtain ⟨hplain, hstays, hget⟩ := hchange now hnow.plain hnow.here
  refine hnow.step hplain hstays fun l => ?_
  obtain hsame | ⟨-, hne⟩ | ⟨⟨name, rfl⟩, -, -⟩ := hget l
  · rw [hsame]
    exact (p.paths.stampKeeping fs places).refl _ _
  · exact free_of_ne_stamp hne _ _
  · exact h.free_of_outside (.inr ((List.prefix_append _ _).trans (List.prefix_append _ _))) _ _

theorem permits_stampKeeping (places : List Location) :
    p.Permits (p.paths.stampKeeping fs places) where
  zeroTemp := h.zeroTemp
  zeroCache := h.zeroCache
  zeroStaging := h.zeroStaging
  zeroSources := h.zeroSources
  temp l _ := mayMake_anything l
  reach l _ := mayMake_anything l
  cache l _ hne := free_of_ne_stamp hne
  stamp := ⟨mayMake_anything _, mayTouch_anything _⟩
  extraTypes := (free_of_name (by decide)).mayWrite
  managed name _ := mayTouch_anything _
  preserved dir _ := (free_of_name (by decide)).mayWrite
  stripper := h.stripper
  builder builder hbuilder := by
    obtain ⟨n, rfl, hcache⟩ := h.builder builder hbuilder
    exact ⟨n, rfl, hcache.imp_right fun ⟨hzero, hinside, _⟩ =>
      ⟨hzero, hinside, fun l _ => mayMake_anything l⟩⟩
  usedTypes query hquery := h.allows_stampKeeping (h.usedTypes query hquery)
  linker query hquery := h.allows_stampKeeping (h.linker query hquery)
  provider query hquery := h.allows_stampKeeping (h.provider query hquery)
  moreSources query hquery dir := h.allows_stampKeeping (h.moreSources query hquery dir)
  progress callback hcallback told := h.allows_stampKeeping (h.progress callback hcallback told)
  diagnostics sink hsink d := h.allows_stampKeeping (h.diagnostics sink hsink d)
  launcher number spec now edit hedit :=
    h.allows_stampKeeping (h.launcher number spec now edit hedit)

theorem permitsStaging_stampKeeping (places : List Location) :
    p.PermitsStaging (p.paths.stampKeeping fs places) where
  zeroTemp := h.zeroTemp
  zeroStaging := h.zeroStaging
  native _ hl := h.free_of_outside (.inr ((List.prefix_append _ _).trans hl))
  generated _ hl := h.free_of_outside (.inl ((List.prefix_append _ _).trans hl))
  data _ _ _ _ := (h.free_of_outside (.inr ((List.prefix_append _ _).trans
    ((List.prefix_append _ _).trans (List.prefix_append _ _))))).mayWrite
  reachNative l _ := mayMake_anything l
  reachGenerated l _ := mayMake_anything l
  reachData _ _ l _ := mayMake_anything l

end Stamp

/-- Where nothing may become of the published trees, they are as before. -/
theorem keepsTrees {places : List Location} {after : FileSystem}
    (hafter : (p.paths.sealing fs places).Holds after) :
    p.paths.KeepsTrees fs.here places fs after := by
  have hmay : ∀ l, p.paths.Published fs.here l → after.get? l = fs.get? l ∨
      ((l ∈ places ∨ ∃ name, IsData name ∧ l = p.paths.managedAt fs.here ++ [name]) ∧
        fs.directoryAt l = false ∧ after.directoryAt l = false) := hafter.may
  refine ⟨fun l hl hlog => ?_, fun l hl hlog => ?_, fun name hname => ⟨?_, fun hroot l hl hlog => ?_⟩⟩
  · obtain hsame | ⟨hlogged | ⟨name, -, rfl⟩, -⟩ := hmay l ⟨_, .generated, hl⟩
    · exact hsame
    · exact absurd hlogged hlog
    · exact absurd ((List.prefix_append _ _).trans (List.prefix_append _ _))
        (h.disjoint.tempStaging.not_both ((List.prefix_append _ _).trans hl))
  · obtain hsame | ⟨hlogged | ⟨name, -, rfl⟩, -⟩ := hmay l ⟨_, .native, hl⟩
    · exact hsame
    · exact absurd hlogged hlog
    · exact absurd (List.prefix_append _ _)
        ((apart_names (p.paths.stagingAt fs.here) (by decide)).not_both hl)
  · obtain hsame | ⟨-, hbefore, hnow⟩ := hmay _ ⟨_, .data hname, List.prefix_rfl⟩
    · rw [FileSystem.directoryAt, FileSystem.directoryAt, hsame]
    · rw [hbefore, hnow]
  · obtain hsame | ⟨hlogged | ⟨other, -, rfl⟩, hbefore, -⟩ := hmay l ⟨_, .data hname, hl⟩
    · exact hsame
    · exact absurd hlogged hlog
    · rw [hl.eq_of_length (by simp)] at hroot
      cases hbefore.symm.trans hroot

end Plan.Restrained

namespace Plan

open Build

/-- The phases before staging. -/
def phasesBeforeStage (p : Plan) : List Phase :=
  [.init, .strip, .prepare, .generate]
    ++ (if p.collaborators.nativeBuilder.isSome then [.compileLink] else [])

theorem passAll_append (p : Plan) (source : Path) (phases more : List Phase) :
    p.passAll source (phases ++ more) =
      p.passAll source phases >>= fun _ => p.passAll source more := by
  induction phases with
  | nil => simp [passAll]
  | cons phase phases ih => simp [passAll, ih, bind_assoc]

theorem stage_not_mem_phasesBeforeStage (p : Plan) : .stage ∉ p.phasesBeforeStage := by
  unfold phasesBeforeStage
  split <;> decide

theorem adds_passAll_anything (p : Plan) (source : Path) (phases : List Phase) :
    Adds Anything (p.passAll source phases) := by
  induction phases with
  | nil => exact .pure ()
  | cons phase phases ih =>
    exact ((adds_enter p phase).anything.bind fun _ => (adds_work p source phase).anything).bind
      fun _ => ih

section Stamp

variable {p : Plan} {start s : State} {π : Policy}

/-- A build that keeps to a policy, unless the generator has ended well since its start. -/
def HoldsUnlessGenerated (p : Plan) (π : Policy) (start s : State) : Prop :=
  (∃ es, Added Anything start s es) ∧ (π.HoldsFor s ∨ p.Generated start s)

theorem HoldsUnlessGenerated.preserves {m : BuildM Unit} (hadds : Adds Anything m)
    (hm : Preserves π.HoldsFor m) : Preserves (p.HoldsUnlessGenerated π start) m := by
  intro s hs
  obtain ⟨⟨es, hbefore⟩, hs⟩ := hs
  obtain ⟨new, hnew⟩ := hadds s
  exact ⟨⟨es ++ new, hbefore.trans hnew⟩, hs.imp (hm s) (·.added hnew)⟩

/-- The cache is stamped only behind a generator that has ended well. -/
theorem HoldsUnlessGenerated.generate (hs : p.HoldsUnlessGenerated π start s)
    (hpermits : p.Permits π) (hphase : s.phase = .generate) :
    PreservesFrom (p.HoldsUnlessGenerated π start) p.generate s := by
  obtain ⟨⟨es, hbefore⟩, hs⟩ := hs
  obtain ⟨new, hnew⟩ := (adds_generate p).anything s
  refine ⟨⟨es ++ new, hbefore.trans hnew⟩, ?_⟩
  obtain hs | hs := hs
  swap
  · exact .inr (hs.added hnew)
  have hsources := hpermits.preserves_generateSources s hs
  have hrun : exec p.generate s = exec (do
      let arguments ← p.generateSources
      let _ ← perform (Staging.stamp p.paths.cache (Text.join (utf8 " ") arguments))
      return ()) s := by rw [generate_eq]
  have hgoal : ((p.generate.run s).run.2) = (exec p.generate s).2 := rfl
  rw [hgoal]
  cases hexec : exec p.generateSources s with
  | mk result between =>
    have hbetween : π.HoldsFor (exec p.generateSources s).2 := hsources
    rw [hexec] at hbetween
    cases result with
    | error e =>
      rw [hrun, exec_bind_error hexec]
      exact .inl hbetween
    | ok arguments =>
      have hgenerated := p.generates_generateSources s arguments between hphase hexec
      rw [hrun, exec_bind_ok hexec]
      obtain ⟨later, hlater⟩ := (Adds.perform (E := Anything)
        (Staging.stamp p.paths.cache (Text.join (utf8 " ") arguments))).bind
          (fun _ => Adds.pure ()) between
      exact .inr ((hgenerated.added hlater).of_added hbefore)

theorem HoldsUnlessGenerated.pass (hpermits : p.Permits π) (hstaging : p.PermitsStaging π)
    (source : Path) (phase : Phase) :
    Preserves (p.HoldsUnlessGenerated π start) (p.pass source phase) := by
  intro s hs
  have henter : Preserves (p.HoldsUnlessGenerated π start) (p.enter phase) :=
    .preserves (adds_enter p phase).anything (preserves_enter hpermits.progress phase)
  refine (henter s hs).bind fun _ entered hrun hentered => ?_
  have hphase := (p.not_launched_of_enter phase hrun).1
  have hadds := (adds_work p source phase).anything
  cases phase with
  | init => exact HoldsUnlessGenerated.preserves hadds preserves_init entered hentered
  | strip => exact HoldsUnlessGenerated.preserves hadds hpermits.preserves_strip entered hentered
  | prepare => exact HoldsUnlessGenerated.preserves hadds hpermits.preserves_prepare entered hentered
  | generate => exact hentered.generate hpermits hphase
  | compileLink =>
    refine HoldsUnlessGenerated.preserves hadds ?_ entered hentered
    simp only [work]
    split
    · next builder hbuilder => exact hpermits.preserves_compileLink hbuilder source
    · exact .pure ()
  | stage => exact HoldsUnlessGenerated.preserves hadds hstaging.preserves_stage entered hentered
  | done => exact HoldsUnlessGenerated.preserves hadds (.pure ()) entered hentered

theorem HoldsUnlessGenerated.passAll (hpermits : p.Permits π) (hstaging : p.PermitsStaging π)
    (source : Path) (phases : List Phase) :
    Preserves (p.HoldsUnlessGenerated π start) (p.passAll source phases) := by
  induction phases with
  | nil => exact .pure ()
  | cons phase phases ih => exact (pass hpermits hstaging source phase).bind fun _ => ih

end Stamp

/-- A build that has not entered staging has done the work before it, or part of it. -/
theorem preserved_before_stage {p : Plan} {π : Policy} (hpermits : p.Permits π)
    (hstamp : π.MayWrite (p.paths.stampAt π.start.here)) {s after : State} {e : Stop}
    (hs : π.HoldsFor s) (hrun : exec p.run s = (.error e, after))
    (hstage : .entered .stage ∉ happened p.run s) : π.HoldsFor after := by
  have hphases : p.phases = p.phasesBeforeStage ++ [.stage, .done] := rfl
  have hbefore : π.HoldsFor (exec (p.passAll p.paths.cache p.phasesBeforeStage) s).2 :=
    hpermits.preserves_passAll hstamp _ p.stage_not_mem_phasesBeforeStage s hs
  unfold happened at hstage
  rw [hrun] at hstage
  rw [run_eq_passAll, hphases, passAll_append] at hrun
  cases hpassed : exec (p.passAll p.paths.cache p.phasesBeforeStage) s with
  | mk result between =>
    rw [hpassed] at hbefore
    cases result with
    | error e' =>
      rw [exec_bind_error hpassed] at hrun
      obtain rfl : between = after := congrArg Prod.snd hrun
      exact hbefore
    | ok =>
      rw [exec_bind_ok hpassed, passAll, pass, bind_assoc] at hrun
      have hentered : π.HoldsFor (exec (p.enter .stage) between).2 :=
        preserves_enter hpermits.progress .stage between hbefore
      cases henter : exec (p.enter .stage) between with
      | mk result entered =>
        rw [henter] at hentered
        cases result with
        | error e' =>
          rw [exec_bind_error henter] at hrun
          obtain rfl : entered = after := congrArg Prod.snd hrun
          exact hentered
        | ok =>
          -- Entering the phase is in the record for good.
          obtain ⟨es, hadded⟩ := p.adds_passAll_anything p.paths.cache p.phasesBeforeStage s
          rw [hpassed] at hadded
          obtain ⟨-, told, hentering, -⟩ := of_exec_enter henter
          rw [exec_bind_ok henter] at hrun
          obtain ⟨gs, hrest⟩ := ((adds_work p p.paths.cache .stage).anything.bind fun _ =>
            p.adds_passAll_anything p.paths.cache [.done]) entered
          rw [hrun] at hrest
          have hevents := ((hadded.trans hentering).trans hrest).events
          rw [hevents, List.drop_left] at hstage
          exact absurd (by simp) hstage

/-- A build that fails before it enters staging leaves the published trees as they were, in whatever
phase it fails and for whatever reason. And however it ends, the stamp of the cache has the content
that it had, unless the generator has run in its phase and exited with code zero. -/
theorem published_only_by_stage (p : Plan) (s : State) (h : p.Restrained s.session.files) :
    (∀ e after, exec p.run s = (.error e, after) → .entered .stage ∉ happened p.run s →
      p.paths.KeepsTrees s.session.files.here s.session.logPlaces s.session.files
        after.session.files) ∧
      ∀ result after, exec p.run s = (result, after) →
        p.paths.stampAt s.session.files.here ∉ s.session.logPlaces →
          after.session.files.contentAt (p.paths.stampAt s.session.files.here) =
              s.session.files.contentAt (p.paths.stampAt s.session.files.here) ∨
            p.Generated s after := by
  refine ⟨fun e after hrun hstage => ?_, fun result after hrun hlog => ?_⟩
  · have hstart : (p.paths.sealing s.session.files s.session.logPlaces).HoldsFor s :=
      ⟨⟨h.plain, rfl, fun l => Policy.refl _ l _⟩, rfl⟩
    have hstamp := (@Restrained.free_of_not_published _ _ s.session.logPlaces _
      (h.disjoint.not_published_of_cache (l := p.paths.stampAt s.session.files.here)
        (List.prefix_append _ _))).mayWrite
    have hafter := preserved_before_stage (h.permits_sealing s.session.logPlaces) hstamp hstart hrun
      hstage
    exact h.keepsTrees hafter.files
  · have hstart : p.HoldsUnlessGenerated
        (p.paths.stampKeeping s.session.files s.session.logPlaces) s s :=
      ⟨⟨[], .refl _ s⟩, .inl ⟨⟨h.plain, rfl, fun l => Policy.refl _ l _⟩, rfl⟩⟩
    have hpassed := HoldsUnlessGenerated.passAll (h.permits_stampKeeping s.session.logPlaces)
      (h.permitsStaging_stampKeeping s.session.logPlaces) p.paths.cache p.phases s hstart
    have hfinal : ((p.passAll p.paths.cache p.phases).run s).run.2 = after := by
      rw [← run_eq_passAll]
      exact congrArg Prod.snd hrun
    unfold PreservesFrom at hpassed
    rw [hfinal] at hpassed
    exact hpassed.2.imp_left fun hholds => hholds.files.may _ rfl hlog

/-- Writes a file, unless a directory stands there. -/
def overwrite (l : Location) (content : Text) (fs : FileSystem) : FileSystem :=
  if fs.directoryAt l then fs else fs.set l (.file 0o644 content)

theorem confines_overwrite {paths : BuildPaths} {here l : Location}
    (hnames : ∀ name ∈ l, Path.IsName name)
    (hl : (paths.cacheAt here <+: l ∧ l ≠ paths.stampAt here) ∨
      ∃ name, l = paths.managedAt here ++ [name]) (content : Text) :
    paths.Confines here (overwrite l content) := by
  intro fs hplain hhere
  unfold overwrite
  cases hdirectory : fs.directoryAt l with
  | true => exact ⟨hplain, rfl, fun _ => .inl rfl⟩
  | false =>
    refine ⟨hplain.set hnames (by simp), rfl, fun l' => ?_⟩
    obtain hsame | ⟨rfl, hset⟩ := get?_set_eq_or fs l l' (.file 0o644 content)
    · exact .inl hsame
    · refine .inr (hl.imp_right fun hmanaged => ⟨hmanaged, hdirectory, ?_⟩)
      rw [if_neg (by simp), FileSystem.directoryAt, hset]
      rfl

/-- A cache with a stamp, and a staging area with a library of an earlier build. -/
def earlierBuild : State where
  session :=
    { files :=
        { entries :=
            [([utf8 "t"], .directory 0o755), ([utf8 "c"], .directory 0o755),
              ([utf8 "c", utf8 "args.stamp"], .file 0o644 (utf8 "01234567")),
              ([utf8 "s"], .directory 0o755), ([utf8 "s", utf8 "Native"], .directory 0o755),
              ([utf8 "s", utf8 "Native", utf8 "l.so"], .file 0o644 (utf8 "old")),
              ([utf8 "s", utf8 "Managed"], .directory 0o755),
              ([utf8 "s", utf8 "Managed", utf8 "a.dll"], .file 0o444 (utf8 "a"))] } }

/-- A plan whose generator leaves a file behind and fails, after the assemblies are stripped. -/
def failingGenerator : Plan where
  options := {}
  paths := { temp := utf8 "/t", cache := utf8 "/c", staging := utf8 "/s" }
  generator := utf8 "/g"
  launcher := fun number _ _ =>
    if number = 0 then
      { steps := [.change (overwrite [utf8 "s", utf8 "Managed", utf8 "a.dll"] (utf8 "b"))] }
    else
      { steps := [.change (overwrite [utf8 "c", utf8 "il2cppOutput", utf8 "half.cpp"] [])]
        ending := .exited 3 }
  collaborators :=
    { stripper := some (.tool (utf8 "/tool"))
      nativeBuilder :=
        some (NativeLibrary.builder { library := utf8 "l.so", cache := utf8 "c/objects" }) }

theorem restrained_failingGenerator : failingGenerator.Restrained earlierBuild.session.files where
  plain := plain_of_entries (by decide +kernel) (by decide +kernel)
  zeroTemp := by decide +kernel
  zeroCache := by decide +kernel
  zeroStaging := by decide +kernel
  zeroSources := by decide +kernel
  disjoint := ⟨by decide +kernel, by decide +kernel, by decide +kernel⟩
  wayTemp := by
    rw [show Path.left earlierBuild.session.files.here failingGenerator.paths.temp = [] by
      decide +kernel]
    simp
  wayCache := by
    rw [show Path.left earlierBuild.session.files.here failingGenerator.paths.cache = [] by
      decide +kernel]
    simp
  stripper strip h := by cases h
  builder builder hbuilder := by
    refine ⟨{ library := utf8 "l.so", cache := utf8 "c/objects" }, (Option.some.inj hbuilder).symm,
      .inr ⟨by decide +kernel, by decide +kernel, ?_⟩⟩
    rw [show Path.left earlierBuild.session.files.here (utf8 "c/objects") = [] by decide +kernel]
    simp
  usedTypes := by simp [failingGenerator]
  linker := by simp [failingGenerator]
  provider := by simp [failingGenerator]
  moreSources := by simp [failingGenerator]
  progress := by simp [failingGenerator]
  diagnostics := by simp [failingGenerator]
  launcher number spec fs edit hedit := by
    by_cases hnumber : number = 0
    · obtain rfl : edit = overwrite [utf8 "s", utf8 "Managed", utf8 "a.dll"] (utf8 "b") := by
        simpa [failingGenerator, hnumber] using hedit
      exact confines_overwrite (by decide +kernel) (.inr ⟨utf8 "a.dll", by decide +kernel⟩) _
    · obtain rfl : edit = overwrite [utf8 "c", utf8 "il2cppOutput", utf8 "half.cpp"] [] := by
        simpa [failingGenerator, hnumber] using hedit
      exact confines_overwrite (by decide +kernel) (.inl (by decide +kernel)) _

/-- The generator has left its file, and nothing is published. -/
theorem published_only_by_stage_of_failingGenerator :
    (exec failingGenerator.run earlierBuild).2.phase = .generate ∧
      (exec failingGenerator.run earlierBuild).2.session.files.contentAt
        [utf8 "c", utf8 "il2cppOutput", utf8 "half.cpp"] = some [] ∧
      failingGenerator.paths.KeepsTrees [] [] earlierBuild.session.files
        (exec failingGenerator.run earlierBuild).2.session.files := by
  refine ⟨by decide +kernel, by decide +kernel, ?_⟩
  have hfails : (exec failingGenerator.run earlierBuild).1.isOk = false := by decide +kernel
  have hphases : .stage ∉ entered (happened failingGenerator.run earlierBuild) := by
    decide +kernel
  have hstage : .entered .stage ∉ happened failingGenerator.run earlierBuild := fun hmem =>
    hphases (List.mem_filterMap.mpr ⟨_, hmem, rfl⟩)
  have hkept := (failingGenerator.published_only_by_stage earlierBuild
    restrained_failingGenerator).1
  generalize hexec : exec failingGenerator.run earlierBuild = final at hfails hkept ⊢
  obtain ⟨result, after⟩ := final
  cases result with
  | ok => cases hfails
  | error e => exact hkept e after rfl hstage

end Plan

end NativeBuild
