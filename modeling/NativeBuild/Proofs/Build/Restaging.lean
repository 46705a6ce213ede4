import NativeBuild.Proofs.Build.Settled

/-!
# Staging once and again

A task that succeeds has put every tree in place, and from then on staging succeeds and leaves every
tree as it is. So it is enough to follow the trees through one run, step by step.
-/
namespace NativeBuild

open FileSystem BuildPaths

namespace Plan

variable {p : Plan} {s t u : Session} {root : Location} {folder ending : Text}

theorem Underway.of_alike (h : s.Alike t) : p.Underway s t where
  confined := h.mono fun _ hnone => hnone.elim
  kept _ _ hdirectory := h.directoryAt (fun _ hnone => hnone.elim) hdirectory

namespace Ready

variable (h : p.Ready s)
include h

/-- A published tree is the same when nothing but logs is written. -/
theorem view_eq_of_alike (ht : s.Alike t) (hroot : p.paths.Root s.files.here root) :
    t.files.view root = s.files.view root := ht.view_eq (fun _ hnone => hnone.elim) (h.not_log hroot)

/-- There is a directory wherever a path that can be entered leads. -/
theorem directoryAt_way {q : Path} (hq : s.files.Reaches q) {l : Location}
    (hl : l <+: Path.location s.files.here q)
    (hnot : ¬ generatedIn (p.paths.tempAt s.files.here) <+: l) : s.files.directoryAt l = true := by
  obtain hstart | hdirectory := hq.through.directoryAt hl
  · unfold Path.start at hstart
    split at hstart
    · rw [List.prefix_nil.mp hstart]
      rfl
    · exact h.here l hstart hnot
  · exact hdirectory

/-- A published tree that is found is in a directory. -/
theorem directoryAt_above {q : Path} {name : Text} (hzero : 0 ∉ q) (hname : Path.IsName name)
    (hfound : s.files.isDirectory (Path.join q name) = true)
    (hroot : p.paths.Root s.files.here (Path.location s.files.here q ++ [name])) {l : Location}
    (hl : l <+: Path.location s.files.here q ++ [name])
    (hnot : ¬ Path.location s.files.here q ++ [name] <+: l) : s.files.directoryAt l = true := by
  obtain ⟨hq, -, -⟩ := (h.plain.isDirectory_join_iff hzero hname).mp hfound
  obtain rfl | hl := List.prefix_concat_iff.mp hl
  · exact absurd List.prefix_rfl hnot
  refine h.directoryAt_way hq hl fun hin => ?_
  obtain heq | hapart := h.disjoint.apart_roots .generated hroot
  · exact hnot (heq ▸ hin)
  · exact hapart.1 (hin.trans (hl.trans (List.prefix_append _ _)))

end Ready

/-- The native libraries of the cache are found as before. -/
theorem Ready.isDirectory_native (h : p.Ready s) (ht : p.Underway s t) :
    t.files.isDirectory (Staging.native p.paths.cache) =
      s.files.isDirectory (Staging.native p.paths.cache) := by
  have hcache := h.view_cache ht (l := nativeIn (p.paths.cacheAt s.files.here)) (List.prefix_append _ _)
  have hname := Staging.isName_native
  rw [Bool.eq_iff_iff]
  refine ⟨fun hthere => ?_, h.isDirectory_of_underway ht h.zeroCache hname
    (h.disjoint.apart_cache .generated (List.prefix_append _ _)).1
    fun l hl => (h.back l (.inl hl)).2⟩
  obtain ⟨-, hshort, hdirectory⟩ := (ht.confined.plain.isDirectory_join_iff h.zeroCache hname).mp hthere
  have hbefore : s.files.directoryAt (nativeIn (p.paths.cacheAt s.files.here)) = true := by
    rw [← view_directoryAt_nil, ← hcache, view_directoryAt_nil, ← ht.confined.here]
    exact hdirectory
  exact (h.plain.isDirectory_join_iff h.zeroCache hname).mpr ⟨h.native hbefore, hshort, hbefore⟩

namespace Settled

variable (h : p.Settled s)
include h

theorem of_alike (ht : s.Alike t) : p.Settled t := by
  have hunderway : p.Underway s t := .of_alike ht
  have htrees : ∀ {root}, p.paths.Root s.files.here root → _ := h.ready.view_eq_of_alike ht
  have hcache := h.ready.view_cache hunderway (l := generatedIn (p.paths.cacheAt s.files.here))
    (List.prefix_append _ _)
  refine ⟨h.ready.of_underway hunderway (.inl (htrees .generated)), ?_, ?_, ?_⟩
  · rw [h.ready.isDirectory_native hunderway]
    exact fun hthere => h.ready.hasNative_of_underway hunderway (h.native hthere) (htrees .native)
  · exact h.ready.hasGenerated_of_underway hunderway h.generated (htrees .generated)
  · rw [ht.here, hcache]
    exact fun folder ending hfolder hthere => h.ready.hasFolder_of_underway hunderway hfolder
      (h.data folder ending hfolder hthere) (htrees .generated) (htrees (.data hfolder.isData))

theorem native_again : ∃ t, (p.placeNative.run s).run = (.ok (), t) ∧ s.Alike t := by
  have hrun := Staging.run_doIf (Staging.native p.paths.cache)
    (Staging.copyTree (Staging.native p.paths.cache) (Staging.native p.paths.staging) true) s
  cases hthere : s.files.isDirectory (Staging.native p.paths.cache) with
  | false =>
    rw [hthere, if_neg (by simp)] at hrun
    exact ⟨s, hrun, .refl h.ready.plain⟩
  | true =>
    have hnative := h.native hthere
    obtain ⟨t, hcopy⟩ := Staging.copyTree_succeeds h.ready.plain h.ready.zeroCache h.ready.zeroStaging
      Staging.isName_native Staging.isName_native
      (h.ready.disjoint.apart_cache .native (List.prefix_append _ _)).symm hthere hnative.found
      hnative.fits
    rw [hthere, if_pos rfl] at hrun
    replace hrun := hrun.trans hcopy
    obtain ⟨-, hrebuilds, -⟩ := h.ready.places_native hrun
    have hentered : (s.files.view (nativeIn (p.paths.stagingAt s.files.here))).entered =
        s.files.view (nativeIn (p.paths.stagingAt s.files.here)) :=
      h.ready.plain.entered_view h.ready.zeroStaging Staging.isName_native hnative.found
    rw [if_pos hthere, hentered, hnative.laid] at hrebuilds
    exact ⟨t, hrun, hrebuilds.alike fun l => h.ready.directoryAt_above h.ready.zeroStaging
      Staging.isName_native hnative.found .native⟩

theorem folder_again (hfolder : Staging.DataFolder folder ending) :
    ∃ t, ((p.placeFolder s.here folder ending).run s).run = (.ok (), t) ∧ s.Alike t := by
  have hrun := Staging.run_doIf
    (Path.join (Path.join (Staging.generated s.here p.paths.temp) (utf8 "Data")) folder)
    (Staging.copyMatching
      (Path.join (Path.join (Staging.generated s.here p.paths.temp) (utf8 "Data")) folder)
      (Path.join (p.managed s.here) folder) ending) s
  have hcache := h.ready.isDirectory_folder h.generated hfolder.isName
  cases hthere : (s.files.view (generatedIn (p.paths.cacheAt s.files.here))).directoryAt
      [utf8 "Data", folder] with
  | false =>
    rw [hcache, hthere, if_neg (by simp)] at hrun
    exact ⟨s, hrun, .refl h.ready.plain⟩
  | true =>
    have hdata := h.data folder ending hfolder hthere
    have hroot : p.paths.Root s.files.here (p.paths.managedAt s.files.here ++ [folder]) :=
      .data hfolder.isData
    have hlocation : Path.location s.files.here
        (Path.join (Staging.generated s.here p.paths.temp) (utf8 "Data")) ++ [folder] =
        dataIn (generatedIn (p.paths.tempAt s.files.here)) folder :=
      congrArg (· ++ [folder]) h.ready.leadsData.location
    have hmanaged := h.ready.leadsManaged.location
    obtain ⟨t, hcopy⟩ : ∃ t, ((Staging.copyMatching
        (Path.join (Path.join (Staging.generated s.here p.paths.temp) (utf8 "Data")) folder)
        (Path.join (p.managed s.here) folder) ending).run s).run = (.ok (), t) :=
      Staging.copyMatching_succeeds h.ready.plain
      h.ready.leadsData.zero h.ready.leadsManaged.zero hfolder.isName hfolder.isName
      (by
        rw [hlocation, hmanaged]
        exact (h.ready.disjoint.apart_generated (managed_inside folder)).mono
          ((List.prefix_append _ _).trans (List.prefix_append _ _)) List.prefix_rfl)
      (by
        rw [hlocation]
        exact fun file => h.ready.length_lt_file h.generated)
      (hcache.trans hthere) hdata.found (by rw [hlocation, hmanaged]; exact hdata.fits)
    rw [hcache, hthere, if_pos rfl, hcopy] at hrun
    obtain ⟨-, hrebuilds, -⟩ := h.ready.places_folder h.generated hfolder hrun
    have hentered : (s.files.view (p.paths.managedAt s.files.here ++ [folder])).entered =
        s.files.view (p.paths.managedAt s.files.here ++ [folder]) := by
      rw [← hmanaged]
      exact h.ready.plain.entered_view h.ready.leadsManaged.zero hfolder.isName hdata.found
    rw [if_pos hthere, hentered, hdata.laid] at hrebuilds
    refine ⟨t, hrun, hrebuilds.alike fun l => ?_⟩
    rw [← hmanaged] at hroot ⊢
    exact h.ready.directoryAt_above h.ready.leadsManaged.zero hfolder.isName hdata.found hroot

theorem generated_again : ∃ t, ((p.placeGenerated s.here).run s).run = (.ok (), t) ∧ s.Alike t := by
  have hname := Staging.isName_generated
  have htemp := h.ready.leadsTemp
  have hcache := h.ready.leadsCache
  have hnot : ∀ l, l <+: p.paths.tempAt s.files.here →
      ¬ generatedIn (p.paths.tempAt s.files.here) <+: l := fun l hl hin =>
    not_name_isPrefix _ _ (hin.trans hl)
  obtain ⟨hq, hshort, -⟩ :=
    (h.ready.plain.isDirectory_join_iff htemp.zero hname).mp h.generated.found
  obtain ⟨wiped, hrecreate⟩ := Staging.recreate_succeeds h.ready.plain htemp.zero hname
    h.generated.found
    (h.ready.directoryAt_way hq List.prefix_rfl (by rw [htemp.location]; exact hnot _ List.prefix_rfl))
    (by rw [htemp.left]; simp)
    (by
      rw [htemp.location]
      exact fun file hfile => h.ready.length_lt_generated h.generated
        (List.cons_ne_nil _ _) hfile)
  have hfresh := h.ready.rebuilds_of_recreate hrecreate
  -- The wipe reaches the target only: the source is still there, and it fits to an empty directory.
  have hwiped : p.Underway s wiped := ⟨hfresh.confined .generated, fun l hl => hfresh.directoryAt hl⟩
  have hapart := h.ready.disjoint.apart_cache .generated
    (l := generatedIn (p.paths.cacheAt s.files.here)) (List.prefix_append _ _)
  have hsource := h.ready.isDirectory_cache hwiped h.generated.source
  have htarget : wiped.files.isDirectory (Staging.generated s.here p.paths.temp) = true := by
    refine (hfresh.plain.isDirectory_join_iff htemp.zero hname).mpr ⟨?_, hshort, ?_⟩
    · refine hq.mono hfresh.here fun l hl => hfresh.directoryAt ?_
      rw [htemp.location, htemp.left] at hl
      exact hnot l (hl.resolve_right List.not_mem_nil)
    · rw [hfresh.here, htemp.location, ← view_directoryAt_nil]
      exact congrArg (View.directoryAt · []) hfresh.inside
  obtain ⟨t, hcopy⟩ := Staging.copyTree_succeeds hfresh.plain hcache.zero htemp.zero hname hname
    (by rw [hfresh.here, hcache.location, htemp.location]; exact hapart.symm) hsource htarget (by
      have hinside : wiped.files.view (p.paths.tempAt s.files.here ++ [utf8 "il2cppOutput"]) =
        View.fresh := hfresh.inside
      rw [hfresh.here, hcache.location, htemp.location, hinside,
        h.ready.view_cache hwiped (List.prefix_append _ _)]
      exact h.generated.fits)
  have hrun : ((p.placeGenerated s.here).run s).run = (.ok (), t) :=
    (run_bind_ok hrecreate).trans hcopy
  obtain ⟨ht, ⟨new, hrebuilds⟩, hgenerated⟩ := h.ready.places_generated hrun
  have hlaid := hgenerated.laid
  rw [ht.confined.here, h.ready.view_cache ht (l := generatedIn _) (List.prefix_append _ _),
    h.generated.laid] at hlaid
  rw [← hrebuilds.inside, ← hlaid] at hrebuilds
  refine ⟨t, hrun, hrebuilds.alike fun l => ?_⟩
  have habove := h.ready.directoryAt_above htemp.zero hname h.generated.found
    (by rw [htemp.location]; exact .generated) (l := l)
  rwa [htemp.location] at habove

/-- Staging again succeeds, and changes nothing but logs. -/
theorem publish_again : ∃ t, ((p.publish s.here).run s).run = (.ok (), t) ∧ s.Alike t := by
  have hhere : ∀ {t}, s.Alike t → t.here = s.here := fun ht =>
    (Underway.of_alike (p := p) ht).here_eq
  -- Each step finds the trees as the one before has left them, and leaves them so.
  obtain ⟨t₁, hnative, h₁⟩ := h.native_again
  obtain ⟨t₂, hgenerated, h₂⟩ := (h.of_alike h₁).generated_again
  have h₂ := h₁.trans h₂
  obtain ⟨t₃, hmetadata, h₃⟩ := (h.of_alike h₂).folder_again .metadata
  have h₃ := h₂.trans h₃
  obtain ⟨t₄, hresources, h₄⟩ := (h.of_alike h₃).folder_again .resources
  have h₄ := h₃.trans h₄
  have hsource := (h.of_alike h₁).generated.source
  rw [← p.run_placeMetadata] at hmetadata
  rw [← p.run_placeResources] at hresources
  rw [hhere h₁] at hgenerated hsource
  rw [hhere h₂] at hmetadata
  rw [hhere h₃] at hresources
  refine ⟨_, ?_, h₄.trans ((Session.loggedFrom_log .info (utf8 "invoker")
    (utf8 "Staged native output into " ++ p.paths.staging) t₄).confined (h.of_alike h₄).ready.plain)⟩
  unfold publish
  rw [run_bind_ok hnative, Staging.run_doIf, if_pos hsource, run_bind_ok hgenerated,
    run_bind_ok hmetadata, run_bind_ok hresources]
  rfl

end Settled

/-- What staging has made of the data files for a directory, when it has come to them. -/
structure StagesFolder (p : Plan) (done : Prop) (s t : Session) (folder ending : Text) : Prop where
  data : done → (s.files.view (generatedIn (p.paths.cacheAt s.files.here))).directoryAt
      [utf8 "Data", folder] = true →
    t.files.view (p.paths.managedAt s.files.here ++ [folder]) =
      View.matching ending
        (t.files.view (dataIn (generatedIn (p.paths.tempAt s.files.here)) folder))
        (s.files.view (p.paths.managedAt s.files.here ++ [folder])).entered ∧ p.HasFolder t folder ending
  other : ¬ (done ∧ (s.files.view (generatedIn (p.paths.cacheAt s.files.here))).directoryAt
      [utf8 "Data", folder] = true) →
    t.files.view (p.paths.managedAt s.files.here ++ [folder]) =
      s.files.view (p.paths.managedAt s.files.here ++ [folder])

/-- What staging has made of the trees, when it has come to some of the directories for data
files. -/
structure Stages (p : Plan) (done : Text → Prop) (s t : Session) : Prop where
  underway : p.Underway s t
  ready : p.Ready t
  native : t.files.view (nativeIn (p.paths.stagingAt s.files.here)) =
    if s.files.isDirectory (Staging.native p.paths.cache) then
      View.overlay (utf8 "Native") (s.files.view (nativeIn (p.paths.cacheAt s.files.here)))
        (s.files.view (nativeIn (p.paths.stagingAt s.files.here))).entered
    else s.files.view (nativeIn (p.paths.stagingAt s.files.here))
  hasNative : s.files.isDirectory (Staging.native p.paths.cache) = true → p.HasNative t
  hasGenerated : p.HasGenerated t
  folders : ∀ folder ending, Staging.DataFolder folder ending →
    p.StagesFolder (done folder) s t folder ending

/-- At first the native libraries and the generated sources are put in place. -/
theorem Ready.stages_sources (h : p.Ready s) {placed : Session}
    (hnative : (p.placeNative.run s).run = (.ok (), placed))
    (hgenerated : ((p.placeGenerated s.here).run placed).run = (.ok (), t)) :
    p.Stages (fun _ => False) s t := by
  obtain ⟨h₁, hrebuilds₁, hplaced⟩ := h.places_native hnative
  have hgeneratedApart := h.disjoint.apart_generated
    (l := nativeIn (p.paths.stagingAt s.files.here)) (List.prefix_append _ _)
  have hready₁ := h.of_underway h₁
    (.inl (h.view_eq_of_rebuilds hrebuilds₁ .generated hgeneratedApart.symm))
  rw [← h₁.here_eq] at hgenerated
  obtain ⟨h₂, ⟨new, hrebuilds₂⟩, hgenerated⟩ := hready₁.places_generated hgenerated
  have hready₂ := hready₁.of_underway h₂ (.inr (h₂.here_eq ▸ hgenerated.found))
  have hnativeView := hready₁.view_eq_of_rebuilds hrebuilds₂ .native
    (h₁.confined.here.symm ▸ hgeneratedApart)
  refine ⟨h₁.trans h₂, hready₂, ?_, fun hthere => ?_, hgenerated, fun folder ending hfolder =>
    ⟨fun hnone => hnone.elim, fun _ => ?_⟩⟩
  · rw [h₁.confined.here] at hnativeView
    rw [hnativeView, hrebuilds₁.inside]
  · exact hready₁.hasNative_of_underway h₂ (hplaced hthere) hnativeView
  · have hroot : p.paths.Root s.files.here (p.paths.managedAt s.files.here ++ [folder]) :=
      .data hfolder.isData
    have hkept := hready₁.view_eq_of_rebuilds hrebuilds₂
      (show p.paths.Root placed.files.here (p.paths.managedAt s.files.here ++ [folder]) from
        h₁.confined.here.symm ▸ hroot)
      (h₁.confined.here.symm ▸ h.disjoint.apart_generated (managed_inside folder))
    exact hkept.trans (h.view_eq_of_rebuilds hrebuilds₁ hroot (apart_native folder))

namespace Stages

variable {done done' : Text → Prop} (h : p.Stages done s t) (hu : p.Underway t u)
  (hgenerated : u.files.view (generatedIn (p.paths.tempAt s.files.here)) =
    t.files.view (generatedIn (p.paths.tempAt s.files.here)))
include h hu hgenerated

omit h hu in
theorem view_data (folder : Text) :
    u.files.view (dataIn (generatedIn (p.paths.tempAt s.files.here)) folder) =
      t.files.view (dataIn (generatedIn (p.paths.tempAt s.files.here)) folder) := by
  unfold dataIn
  rw [← view_under, ← view_under, ← view_under, ← view_under, hgenerated]

/-- Data files that have not been touched. -/
theorem folder_of_underway (hfolder : Staging.DataFolder folder ending)
    (hview : u.files.view (p.paths.managedAt s.files.here ++ [folder]) =
      t.files.view (p.paths.managedAt s.files.here ++ [folder])) :
    p.StagesFolder (done folder) s u folder ending := by
  have hhere := h.underway.confined.here
  have hbefore := h.folders folder ending hfolder
  refine ⟨fun hdone hthere => ?_, fun hnot => hview.trans (hbefore.other hnot)⟩
  obtain ⟨hlaid, hplaced⟩ := hbefore.data hdone hthere
  rw [hview, view_data hgenerated]
  exact ⟨hlaid, h.ready.hasFolder_of_underway hu hfolder hplaced (by rw [hhere, hgenerated])
    (by rw [hhere, hview])⟩

/-- A step that leaves the native libraries and the generated sources. -/
theorem step (hnative : u.files.view (nativeIn (p.paths.stagingAt s.files.here)) =
      t.files.view (nativeIn (p.paths.stagingAt s.files.here)))
    (hfolders : ∀ folder ending, Staging.DataFolder folder ending →
      p.StagesFolder (done' folder) s u folder ending) : p.Stages done' s u := by
  have hhere := h.underway.confined.here
  exact ⟨h.underway.trans hu, h.ready.of_underway hu (.inl (by rw [hhere, hgenerated])),
    hnative.trans h.native,
    fun hthere => h.ready.hasNative_of_underway hu (h.hasNative hthere) (by rw [hhere, hnative]),
    h.ready.hasGenerated_of_underway hu h.hasGenerated (by rw [hhere, hgenerated]), hfolders⟩

omit hu hgenerated in
/-- Writing logs changes nothing of this. -/
theorem of_alike (hu : t.Alike u) : p.Stages done s u := by
  have htrees : ∀ {root}, p.paths.Root s.files.here root → u.files.view root = t.files.view root :=
    fun hroot => h.ready.view_eq_of_alike hu (h.underway.confined.here.symm ▸ hroot)
  exact h.step (.of_alike hu) (htrees .generated) (htrees .native) fun folder ending hfolder =>
    h.folder_of_underway (.of_alike hu) (htrees .generated) hfolder (htrees (.data hfolder.isData))

omit hu hgenerated in
/-- Then the data files for one directory after the other are put in place. -/
theorem next (hs : p.Ready s) (hfolder : Staging.DataFolder folder ending) (hnot : ¬ done folder)
    (hrun : ((p.placeFolder s.here folder ending).run t).run = (.ok (), u)) :
    p.Stages (fun other => done other ∨ other = folder) s u := by
  have hhere := h.underway.confined.here
  rw [← h.underway.here_eq] at hrun
  obtain ⟨hu, hrebuilds, hplaced⟩ := h.ready.places_folder h.hasGenerated hfolder hrun
  rw [hhere] at hrebuilds hplaced
  have hcache := hs.view_cache h.underway (l := generatedIn (p.paths.cacheAt s.files.here))
    (List.prefix_append _ _)
  have hkept : ∀ {root}, p.paths.Root s.files.here root →
      Apart (p.paths.managedAt s.files.here ++ [folder]) root →
      u.files.view root = t.files.view root :=
    fun hother hapart => h.ready.view_eq_of_rebuilds hrebuilds (hhere.symm ▸ hother) hapart
  have hgenerated := hkept .generated (hs.disjoint.apart_generated (managed_inside folder)).symm
  have hbefore := (h.folders folder ending hfolder).other fun hboth => hnot hboth.1
  have hinside := hrebuilds.inside
  rw [hcache, hbefore] at hinside
  rw [hcache] at hplaced
  refine h.step hu hgenerated (hkept .native (apart_native folder).symm) fun other ending' hother => ?_
  -- The data files of the other directory lie apart, so they are as they were.
  by_cases heq : other = folder
  · subst heq
    obtain rfl := hfolder.ending_eq hother
    refine ⟨fun _ hthere => ⟨?_, hplaced hthere⟩, fun hnone => ?_⟩
    · rw [hinside, if_pos hthere, view_data hgenerated]
    · rw [hinside, if_neg fun hthere => hnone ⟨.inr rfl, hthere⟩]
  · rw [or_iff_left heq]
    exact h.folder_of_underway hu hgenerated hother
      (hkept (.data hother.isData) (apart_names _ (Ne.symm heq)))

end Stages

/-- A task that succeeds has put all trees in place. -/
theorem Ready.stages (h : p.Ready s)
    (hsource : s.files.isDirectory (Staging.generated s.here p.paths.cache) = true)
    (hrun : ((p.publish s.here).run s).run = (.ok (), t)) : p.Stages IsData s t := by
  unfold publish at hrun
  obtain ⟨⟨⟩, t₁, hnative, hrun⟩ := of_run_bind hrun
  obtain ⟨h₁, -, -⟩ := h.places_native hnative
  rw [Staging.run_doIf, if_pos (h.isDirectory_cache h₁ hsource)] at hrun
  obtain ⟨⟨⟩, t₂, hgenerated, hrun⟩ := of_run_bind hrun
  have h₂ := h.stages_sources hnative hgenerated
  obtain ⟨⟨⟩, t₃, hmetadata, hrun⟩ := of_run_bind hrun
  rw [← h₂.underway.here_eq, run_placeMetadata, h₂.underway.here_eq] at hmetadata
  have h₃ := h₂.next h .metadata id hmetadata
  obtain ⟨⟨⟩, t₄, hresources, hlog⟩ := of_run_bind hrun
  rw [← h₃.underway.here_eq, run_placeResources, h₃.underway.here_eq] at hresources
  have h₄ := h₃.next h .resources (by decide +kernel) hresources
  have hlogged := Session.loggedFrom_log .info (utf8 "invoker")
    (utf8 "Staged native output into " ++ p.paths.staging) t₄
  obtain rfl : _ = t := congrArg Prod.snd hlog
  have hafter := h₄.of_alike (hlogged.confined h₄.ready.plain)
  simp only [false_or] at hafter
  exact hafter

/-- When all trees are in place, they stay. -/
theorem Stages.settled (hs : p.Ready s) (h : p.Stages IsData s t) : p.Settled t where
  ready := h.ready
  native hthere := h.hasNative (hs.isDirectory_native h.underway ▸ hthere)
  generated := h.hasGenerated
  data folder ending hfolder hthere := by
    rw [h.underway.confined.here, hs.view_cache h.underway (l := generatedIn _) (List.prefix_append _ _)]
      at hthere
    exact ((h.folders folder ending hfolder).data hfolder.isData hthere).2

end Plan

end NativeBuild
