import NativeBuild.Proofs.Build.Trees
import NativeBuild.Proofs.Staging.Matching

/-!
# What staging makes

Staging is one task of the session. If it succeeds, it has rebuilt the published trees, one after
the other: the native libraries of the cache lie over those of the staging area, the generated
sources of the temporary directory are those of the cache, and the data files among them lie over
those in the managed directory. None of these trees touches another one, so each stays as its own
step has left it.
-/
namespace NativeBuild

open FileSystem BuildPaths
open NativeBuild.Path (IsName)

namespace Build

variable {α β : Type}

theorem ext_exec {m m' : BuildM α} (h : ∀ s, exec m s = exec m' s) : m = m' :=
  funext fun s => h s

/-- Tasks in a row are one task. -/
theorem perform_bind (a : Job α) (f : α → Job β) :
    perform (a >>= f) = perform a >>= fun x => perform (f x) := by
  refine ext_exec fun s => ?_
  rw [exec_perform, run_bind, exec_bind, exec_perform]
  cases (a.run s.session).run with
  | mk result session =>
    cases result with
    | ok x =>
      dsimp only
      exact (exec_perform (f x) { s with session }).symm
    | error failure => rfl

theorem perform_get_bind (k : Session → Job β) :
    perform (get >>= k) = get >>= fun s => perform (k s.session) := by
  refine ext_exec fun s => ?_
  rw [exec_perform, run_get_bind]
  exact (exec_perform _ _).symm

end Build

namespace Staging

/-- Does a task if a directory is there. -/
def doIf (dir : Path) (task : Job Unit) : Job Unit := do
  if (← get).files.isDirectory dir then task

theorem perform_doIf (dir : Path) (task : Job Unit) :
    Build.perform (doIf dir task) = Build.performIf dir task := by
  unfold Build.performIf doIf
  rw [Build.perform_get_bind]
  congr 1
  funext s
  cases s.session.files.isDirectory dir <;> rfl

theorem run_doIf (dir : Path) (task : Job Unit) (s : Session) : ((doIf dir task).run s).run =
    if s.files.isDirectory dir then (task.run s).run else (.ok (), s) := by
  unfold doIf
  rw [run_get_bind]
  split <;> rfl

/-- The directories for data files, and how the names of the files end that belong there. -/
inductive DataFolder : Text → Text → Prop
  | metadata : DataFolder (utf8 "Metadata") metadataEnding
  | resources : DataFolder (utf8 "Resources") resourcesEnding

variable {folder ending : Text}

theorem DataFolder.isName (h : DataFolder folder ending) : IsName folder := by
  cases h <;> decide +kernel

theorem DataFolder.ending_eq {ending' : Text} (h : DataFolder folder ending)
    (h' : DataFolder folder ending') : ending' = ending := by
  have hne : utf8 "Metadata" ≠ utf8 "Resources" := by decide +kernel
  generalize heq : folder = other at h'
  cases h <;> cases h' <;> first | rfl | exact absurd heq hne | exact absurd heq.symm hne

theorem DataFolder.exists_ending (h : IsData folder) : ∃ ending, DataFolder folder ending := by
  obtain rfl | rfl := h
  · exact ⟨_, .metadata⟩
  · exact ⟨_, .resources⟩

theorem DataFolder.isData (h : DataFolder folder ending) : IsData folder := by
  cases h
  · exact .inl rfl
  · exact .inr rfl

end Staging

namespace Plan

open Build

variable (p : Plan) (here : Path)

/-- Copies the native libraries, if there are any. -/
def placeNative : Job Unit :=
  Staging.doIf (Staging.native p.paths.cache)
    (Staging.copyTree (Staging.native p.paths.cache) (Staging.native p.paths.staging) true)

/-- Makes the generated sources anew. -/
def placeGenerated : Job Unit := do
  Staging.recreate (Staging.generated here p.paths.temp)
  Staging.copyTree (Staging.generated here p.paths.cache) (Staging.generated here p.paths.temp) true

/-- Copies the data files for a directory, if there are any. -/
def placeFolder (folder ending : Text) : Job Unit :=
  Staging.doIf (Path.join (Path.join (Staging.generated here p.paths.temp) (utf8 "Data")) folder)
    (Staging.copyMatching
      (Path.join (Path.join (Staging.generated here p.paths.temp) (utf8 "Data")) folder)
      (Path.join (p.managed here) folder) ending)

/-- Staging as one task. -/
def publish : Job Unit := do
  p.placeNative
  Staging.doIf (Staging.generated here p.paths.cache) do
    p.placeGenerated here
    Staging.doIf (Staging.metadataFolder (Staging.generated here p.paths.temp))
      (Staging.copyMetadata p.paths.temp (Path.join (p.managed here) (utf8 "Metadata")))
    Staging.doIf (Staging.resourcesFolder (Staging.generated here p.paths.temp))
      (Staging.copyResources p.paths.temp (Path.join (p.managed here) (utf8 "Resources")))
    Session.log .info (utf8 "invoker") (utf8 "Staged native output into " ++ p.paths.staging)

theorem stage_eq_perform : p.stage = (do
    let here := (← get).session.here
    perform (p.publish here)) := by
  have hlog (level : Log.Level) (module message : Text) :
      Build.log level module message = perform (Session.log level module message) := by
    refine ext_exec fun s => ?_
    rw [exec_perform]
    rfl
  rw [stage_eq]
  unfold publish placeNative placeGenerated publishGenerated publishData
  simp only [Staging.perform_doIf, performIf, perform_bind, bind_assoc, hlog]

theorem run_placeMetadata (s : Session) :
    ((Staging.doIf (Staging.metadataFolder (Staging.generated s.here p.paths.temp))
      (Staging.copyMetadata p.paths.temp (Path.join (p.managed s.here) (utf8 "Metadata")))).run s).run =
    ((p.placeFolder s.here (utf8 "Metadata") Staging.metadataEnding).run s).run := by
  unfold placeFolder Staging.copyMetadata
  rw [Staging.run_doIf, Staging.run_doIf, run_get_bind]
  rfl

theorem run_placeResources (s : Session) :
    ((Staging.doIf (Staging.resourcesFolder (Staging.generated s.here p.paths.temp))
      (Staging.copyResources p.paths.temp (Path.join (p.managed s.here) (utf8 "Resources")))).run s).run =
    ((p.placeFolder s.here (utf8 "Resources") Staging.resourcesEnding).run s).run := by
  unfold placeFolder Staging.copyResources
  rw [Staging.run_doIf, Staging.run_doIf, run_get_bind]
  rfl

end Plan

/-- There are no links, and the three directories lie apart. -/
structure Plan.Separate (p : Plan) (s : Session) : Prop where
  plain : s.files.Plain
  zeroTemp : 0 ∉ p.paths.temp
  zeroCache : 0 ∉ p.paths.cache
  zeroStaging : 0 ∉ p.paths.staging
  disjoint : p.paths.Disjoint s.files.here
  /-- No log is written in the three directories. -/
  logs : ∀ l ∈ s.logPlaces, ¬ p.paths.tempAt s.files.here <+: l ∧
    ¬ p.paths.cacheAt s.files.here <+: l ∧ ¬ p.paths.stagingAt s.files.here <+: l
  /-- What the paths leave again is there, and is not wiped. -/
  back : ∀ l, l ∈ Path.left s.files.here p.paths.cache ∨ l ∈ Path.left s.files.here p.paths.staging →
    s.files.directoryAt l = true ∧ ¬ generatedIn (p.paths.tempAt s.files.here) <+: l

/-- What staging relies on, from its first step to its last one. -/
structure Plan.Ready (p : Plan) (s : Session) : Prop extends p.Separate s where
  /-- The current directory is there, unless it is wiped. -/
  here : ∀ l, l <+: s.files.here → ¬ generatedIn (p.paths.tempAt s.files.here) <+: l →
    s.files.directoryAt l = true
  closed : (s.files.view (generatedIn (p.paths.cacheAt s.files.here))).Closed
  /-- What is there can be reached. -/
  native : s.files.directoryAt (nativeIn (p.paths.cacheAt s.files.here)) = true →
    s.files.Reaches p.paths.cache
  generated : s.files.get? (generatedIn (p.paths.tempAt s.files.here)) ≠ none →
    s.files.Reaches (Path.absoluteNormal s.here p.paths.temp)
  /-- Where nothing is, nothing is below. -/
  nothing : s.files.get? (generatedIn (p.paths.tempAt s.files.here)) = none →
    ∀ l, generatedIn (p.paths.tempAt s.files.here) <+: l → s.files.get? l = none

/-- Part of the staging has been done. -/
structure Plan.Underway (p : Plan) (s t : Session) : Prop where
  confined : s.Confined (p.paths.Root s.files.here) t
  kept : ∀ l, ¬ generatedIn (p.paths.tempAt s.files.here) <+: l → s.files.directoryAt l = true →
    t.files.directoryAt l = true

namespace Plan

variable {p : Plan} {s t u : Session}

theorem Underway.trans (h : p.Underway s t) (h' : p.Underway t u) : p.Underway s u where
  confined := h.confined.trans (h.confined.here ▸ h'.confined)
  kept l hl hdirectory := h'.kept l (h.confined.here ▸ hl) (h.kept l hl hdirectory)

theorem Underway.here_eq (h : p.Underway s t) : t.here = s.here := by
  rw [Session.here, Session.here, h.confined.here]

namespace Ready

variable (h : p.Ready s)
include h

theorem leadsTemp : Path.Leads s.files.here (Path.absoluteNormal s.here p.paths.temp)
    (p.paths.tempAt s.files.here) [] := (Path.leads _ h.zeroTemp).absoluteNormal h.plain.here

theorem leadsCache : Path.Leads s.files.here (Path.absoluteNormal s.here p.paths.cache)
    (p.paths.cacheAt s.files.here) [] := (Path.leads _ h.zeroCache).absoluteNormal h.plain.here

theorem leadsManaged : Path.Leads s.files.here (p.managed s.here) (p.paths.managedAt s.files.here) [] :=
  Staging.leads_managed (Path.leads _ h.zeroStaging) h.plain.here

/-- No log is written in a published tree. -/
theorem not_log {root : Location} (hroot : p.paths.Root s.files.here root) :
    ∀ l ∈ s.logPlaces, ¬ root <+: l := fun l hl hin =>
  hroot.inside.elim (fun htemp => (h.logs l hl).1 (htemp.trans hin))
    fun hstaging => (h.logs l hl).2.2 (hstaging.trans hin)

/-- The cache stays as it is. -/
theorem view_cache (ht : p.Underway s t) {l : Location} (hl : p.paths.cacheAt s.files.here <+: l) :
    t.files.view l = s.files.view l :=
  ht.confined.view_eq (fun _ hroot => h.disjoint.apart_cache hroot hl)
    fun l' hlog hin => (h.logs l' hlog).2.1 (hl.trans hin)

/-- Directories at a location that the temporary directory has no part in are found again. -/
theorem isDirectory_of_underway (ht : p.Underway s t) {q : Path} {name : Text} (hzero : 0 ∉ q)
    (hname : IsName name)
    (hnot : ¬ generatedIn (p.paths.tempAt s.files.here) <+: Path.location s.files.here q ++ [name])
    (hback : ∀ l ∈ Path.left s.files.here q, ¬ generatedIn (p.paths.tempAt s.files.here) <+: l)
    (hthere : s.files.isDirectory (Path.join q name) = true) :
    t.files.isDirectory (Path.join q name) = true :=
  h.plain.isDirectory_mono ht.confined.plain hzero hname ht.confined.here
    (fun l hl => ht.kept l (hl.elim (fun hway hin => hnot (hin.trans hway)) (hback l))) hthere

/-- What staging relies on is there all the time. -/
theorem of_underway (ht : p.Underway s t)
    (hgenerated : t.files.view (generatedIn (p.paths.tempAt s.files.here)) =
        s.files.view (generatedIn (p.paths.tempAt s.files.here)) ∨
      t.files.isDirectory (Staging.generated s.here p.paths.temp) = true) : p.Ready t := by
  have hhere := ht.confined.here
  have htHere := ht.here_eq
  have hnot : ∀ l, l <+: p.paths.cacheAt s.files.here →
      ¬ generatedIn (p.paths.tempAt s.files.here) <+: l := fun l hl hin =>
    (h.disjoint.apart_cache .generated List.prefix_rfl).1 (hin.trans hl)
  have htemp : ∀ {l}, l <+: p.paths.tempAt s.files.here →
      ¬ generatedIn (p.paths.tempAt s.files.here) <+: l := fun hl hin =>
    not_name_isPrefix _ _ (hin.trans hl)
  refine ⟨⟨ht.confined.plain, h.zeroTemp, h.zeroCache, h.zeroStaging, hhere.symm ▸ h.disjoint, ?_,
    ?_⟩, ?_, ?_, ?_, ?_, ?_⟩
  · rw [ht.confined.logPlaces, hhere]
    exact h.logs
  · rw [hhere]
    exact fun l hl => ⟨ht.kept l (h.back l hl).2 (h.back l hl).1, (h.back l hl).2⟩
  · rw [hhere]
    exact fun l hl hin => ht.kept l hin (h.here l hl hin)
  · rw [hhere, h.view_cache ht (l := generatedIn _) (List.prefix_append _ _)]
    exact h.closed
  · rw [hhere, ← view_directoryAt_nil, h.view_cache ht (l := nativeIn _) (List.prefix_append _ _),
      view_directoryAt_nil]
    intro hnative
    refine (h.native hnative).mono hhere fun l hl => ht.kept l ?_
    exact hl.elim (hnot l) fun hleft => (h.back l (.inl hleft)).2
  · rw [hhere, htHere]
    intro hthere
    obtain hsame | hfound := hgenerated
    · rw [← view_nil, hsame, view_nil] at hthere
      refine (h.generated hthere).mono hhere fun l hl => ht.kept l ?_
      rw [h.leadsTemp.location, h.leadsTemp.left] at hl
      exact htemp (hl.resolve_right List.not_mem_nil)
    · exact ((ht.confined.plain.isDirectory_join_iff h.leadsTemp.zero Staging.isName_generated).mp hfound).1
  · rw [hhere]
    obtain hsame | hfound := hgenerated
    · rw [← view_nil, hsame, view_nil]
      rintro hnone l ⟨rel, rfl⟩
      exact (congrFun hsame rel).trans (h.nothing hnone _ (List.prefix_append _ rel))
    · intro hnone
      obtain ⟨-, -, hdirectory⟩ :=
        (ht.confined.plain.isDirectory_join_iff h.leadsTemp.zero Staging.isName_generated).mp hfound
      rw [hhere, h.leadsTemp.location] at hdirectory
      obtain ⟨mode, hget⟩ := directoryAt_iff.mp hdirectory
      cases hget.symm.trans hnone

end Ready

end Plan

end NativeBuild
