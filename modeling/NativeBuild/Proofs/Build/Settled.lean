import NativeBuild.Proofs.Build.Staged

/-!
# Trees that are in place

Each step of staging puts one tree in place: what it copies lies there, and would fit there again. A
tree stays in place while other trees are put in place. When all of them are, every step of staging
succeeds, and leaves each tree as it is.
-/
namespace NativeBuild

open FileSystem BuildPaths
open NativeBuild.Path (IsName)

section Placed

variable (p : Plan) (s : Session)

/-- The native libraries of the cache lie in the staging area. -/
structure Plan.HasNative : Prop where
  found : s.files.isDirectory (Staging.native p.paths.staging) = true
  fits : View.Fits (Staging.native p.paths.cache) (Staging.native p.paths.staging) (utf8 "Native")
    (s.files.view (nativeIn (p.paths.cacheAt s.files.here)))
    (s.files.view (nativeIn (p.paths.stagingAt s.files.here)))
  laid : View.overlay (utf8 "Native") (s.files.view (nativeIn (p.paths.cacheAt s.files.here)))
      (s.files.view (nativeIn (p.paths.stagingAt s.files.here))) =
    s.files.view (nativeIn (p.paths.stagingAt s.files.here))

/-- The generated sources of the cache, and nothing else, lie in the temporary directory. -/
structure Plan.HasGenerated : Prop where
  source : s.files.isDirectory (Staging.generated s.here p.paths.cache) = true
  found : s.files.isDirectory (Staging.generated s.here p.paths.temp) = true
  fits : View.Fits (Staging.generated s.here p.paths.cache) (Staging.generated s.here p.paths.temp)
    (utf8 "il2cppOutput") (s.files.view (generatedIn (p.paths.cacheAt s.files.here))) View.fresh
  laid : View.overlay (utf8 "il2cppOutput")
      (s.files.view (generatedIn (p.paths.cacheAt s.files.here))) View.fresh =
    s.files.view (generatedIn (p.paths.tempAt s.files.here))

/-- Where the data files for a directory lie among the generated sources. -/
def BuildPaths.dataIn (generated : Location) (folder : Text) : Location :=
  generated ++ [utf8 "Data"] ++ [folder]

/-- The data files for a directory lie there. -/
structure Plan.HasFolder (folder ending : Text) : Prop where
  found : s.files.isDirectory (Path.join (p.managed s.here) folder) = true
  fits : View.MatchingFits (Path.join (p.managed s.here) folder) ending
    (s.files.view (dataIn (generatedIn (p.paths.tempAt s.files.here)) folder))
    (s.files.view (p.paths.managedAt s.files.here ++ [folder]))
  laid : View.matching ending
      (s.files.view (dataIn (generatedIn (p.paths.tempAt s.files.here)) folder))
      (s.files.view (p.paths.managedAt s.files.here ++ [folder])) =
    s.files.view (p.paths.managedAt s.files.here ++ [folder])

/-- All that staging puts in place is there. -/
structure Plan.Settled : Prop where
  ready : p.Ready s
  native : s.files.isDirectory (Staging.native p.paths.cache) = true → p.HasNative s
  generated : p.HasGenerated s
  data : ∀ folder ending, Staging.DataFolder folder ending →
    (s.files.view (generatedIn (p.paths.cacheAt s.files.here))).directoryAt [utf8 "Data", folder] = true →
    p.HasFolder s folder ending

end Placed

namespace Plan

variable {p : Plan} {s t u : Session} {root : Location} {new : View} {folder ending : Text}

/-- A step that rebuilds a published tree is part of the staging. -/
theorem Underway.of_lays {target : Path} (hroot : p.paths.Root s.files.here root)
    (h : s.Lays t target root new) : p.Underway s t :=
  ⟨h.confined hroot, fun l _ => h.kept l⟩

namespace Ready

variable (h : p.Ready s)
include h

/-- The other trees stay. -/
theorem view_eq_of_rebuilds (hrebuilds : s.Rebuilds t root new) {other : Location}
    (hother : p.paths.Root s.files.here other) (hapart : Apart root other) :
    t.files.view other = s.files.view other :=
  hrebuilds.view_eq hapart (h.not_log hother)

theorem hasNative_of_underway (ht : p.Underway s t) (hnative : p.HasNative s)
    (hview : t.files.view (nativeIn (p.paths.stagingAt s.files.here)) =
      s.files.view (nativeIn (p.paths.stagingAt s.files.here))) : p.HasNative t := by
  have hcache := h.view_cache ht (l := nativeIn (p.paths.cacheAt s.files.here)) (List.prefix_append _ _)
  refine ⟨?_, ?_, ?_⟩
  · exact h.isDirectory_of_underway ht h.zeroStaging Staging.isName_native
      (h.disjoint.apart_generated (List.prefix_append _ _)).1
      (fun l hl => (h.back l (.inr hl)).2) hnative.found
  · rw [ht.confined.here, hcache, hview]
    exact hnative.fits
  · rw [ht.confined.here, hcache, hview]
    exact hnative.laid

/-- The generated sources of the cache are found again. -/
theorem isDirectory_cache (ht : p.Underway s t)
    (hthere : s.files.isDirectory (Staging.generated s.here p.paths.cache) = true) :
    t.files.isDirectory (Staging.generated s.here p.paths.cache) = true := by
  refine h.isDirectory_of_underway ht h.leadsCache.zero Staging.isName_generated ?_ ?_ hthere
  · rw [h.leadsCache.location]
    exact (h.disjoint.apart_cache .generated (List.prefix_append _ _)).1
  · rw [h.leadsCache.left]
    simp

theorem hasGenerated_of_underway (ht : p.Underway s t) (hgenerated : p.HasGenerated s)
    (hview : t.files.view (generatedIn (p.paths.tempAt s.files.here)) =
      s.files.view (generatedIn (p.paths.tempAt s.files.here))) : p.HasGenerated t := by
  have htHere := ht.here_eq
  have hcache := h.view_cache ht (l := generatedIn (p.paths.cacheAt s.files.here))
    (List.prefix_append _ _)
  refine ⟨?_, ?_, ?_, ?_⟩
  · rw [htHere]
    exact h.isDirectory_cache ht hgenerated.source
  · rw [htHere]
    refine h.plain.isDirectory_mono ht.confined.plain h.leadsTemp.zero Staging.isName_generated
      ht.confined.here (fun l hl hdirectory => ?_) hgenerated.found
    rw [h.leadsTemp.location, h.leadsTemp.left] at hl
    by_cases hin : generatedIn (p.paths.tempAt s.files.here) <+: l
    · obtain ⟨rel, rfl⟩ := hin
      have hsame := congrFun hview rel
      unfold view at hsame
      unfold directoryAt
      rwa [hsame]
    · exact ht.kept l hin hdirectory
  · rw [htHere, ht.confined.here, hcache]
    exact hgenerated.fits
  · rw [ht.confined.here, hcache, hview]
    exact hgenerated.laid

theorem hasFolder_of_underway (ht : p.Underway s t) (hfolder : Staging.DataFolder folder ending)
    (hdata : p.HasFolder s folder ending)
    (hgenerated : t.files.view (generatedIn (p.paths.tempAt s.files.here)) =
      s.files.view (generatedIn (p.paths.tempAt s.files.here)))
    (hview : t.files.view (p.paths.managedAt s.files.here ++ [folder]) =
      s.files.view (p.paths.managedAt s.files.here ++ [folder])) : p.HasFolder t folder ending := by
  have htHere := ht.here_eq
  have hsource : t.files.view (dataIn (generatedIn (p.paths.tempAt s.files.here)) folder) =
      s.files.view (dataIn (generatedIn (p.paths.tempAt s.files.here)) folder) := by
    unfold dataIn
    rw [← view_under, ← view_under, ← view_under, ← view_under, hgenerated]
  refine ⟨?_, ?_, ?_⟩
  · rw [htHere]
    refine h.isDirectory_of_underway ht h.leadsManaged.zero hfolder.isName ?_ ?_ hdata.found
    · rw [h.leadsManaged.location]
      exact (h.disjoint.apart_generated (managed_inside _)).1
    · rw [h.leadsManaged.left]
      simp
  · rw [htHere, ht.confined.here, hsource, hview]
    exact hdata.fits
  · rw [ht.confined.here, hsource, hview]
    exact hdata.laid

/-- The native libraries are put in place if there are any. -/
theorem places_native (hrun : (p.placeNative.run s).run = (.ok (), t)) :
    p.Underway s t ∧
    s.Rebuilds t (nativeIn (p.paths.stagingAt s.files.here))
      (if s.files.isDirectory (Staging.native p.paths.cache) then
        View.overlay (utf8 "Native") (s.files.view (nativeIn (p.paths.cacheAt s.files.here)))
          (s.files.view (nativeIn (p.paths.stagingAt s.files.here))).entered
      else s.files.view (nativeIn (p.paths.stagingAt s.files.here))) ∧
    (s.files.isDirectory (Staging.native p.paths.cache) = true → p.HasNative t) := by
  unfold placeNative at hrun
  rw [Staging.run_doIf] at hrun
  cases hthere : s.files.isDirectory (Staging.native p.paths.cache) with
  | false =>
    rw [hthere, if_neg (by simp)] at hrun
    obtain rfl : s = t := congrArg Prod.snd hrun
    exact ⟨⟨(Session.Rebuilds.refl h.plain _).confined .native, fun _ _ hl => hl⟩,
      .refl h.plain _, by simp⟩
  | true =>
    rw [hthere, if_pos rfl] at hrun
    have hroot : p.paths.Root s.files.here (nativeIn (p.paths.stagingAt s.files.here)) := .native
    obtain ⟨-, hfits, hlays⟩ := Staging.lays_of_copyTree h.plain h.zeroCache h.zeroStaging
      Staging.isName_native Staging.isName_native
      (h.disjoint.apart_cache hroot (List.prefix_append _ _)).symm
      (fun l hl => (h.back l (.inr hl)).1) (h.not_log hroot) hrun
    have ht := Underway.of_lays hroot hlays
    have hcache := h.view_cache ht (l := nativeIn (p.paths.cacheAt s.files.here))
      (List.prefix_append _ _)
    have hinside : t.files.view (nativeIn (p.paths.stagingAt s.files.here)) = _ := hlays.inside
    refine ⟨ht, hlays.toRebuilds, fun _ => ⟨hlays.found, ?_, ?_⟩⟩
    · rw [ht.confined.here, hcache, hinside]
      exact hfits.overlay
    · rw [ht.confined.here, hcache, hinside]
      exact View.overlay_overlay _ _ _

/-- The generated sources are wiped first. -/
theorem rebuilds_of_recreate
    (hrun : ((Staging.recreate (Staging.generated s.here p.paths.temp)).run s).run = (.ok (), t)) :
    s.Rebuilds t (generatedIn (p.paths.tempAt s.files.here)) View.fresh := by
  have hname := Staging.isName_generated
  have hfresh := Staging.rebuilds_of_recreate h.plain h.leadsTemp.zero hname (by rw [h.leadsTemp.left]; simp)
    (by rw [h.leadsTemp.location]; exact h.generated)
    (by rw [h.leadsTemp.location]; exact h.nothing) hrun
  rwa [h.leadsTemp.location] at hfresh

/-- The generated sources are put in place. -/
theorem places_generated (hrun : ((p.placeGenerated s.here).run s).run = (.ok (), t)) :
    p.Underway s t ∧ (∃ new, s.Rebuilds t (generatedIn (p.paths.tempAt s.files.here)) new) ∧
      p.HasGenerated t := by
  have hroot : p.paths.Root s.files.here (generatedIn (p.paths.tempAt s.files.here)) := .generated
  obtain ⟨⟨⟩, wiped, hrecreate, hcopy⟩ := of_run_bind hrun
  have hname := Staging.isName_generated
  have htemp := h.leadsTemp
  have hfresh := h.rebuilds_of_recreate hrecreate
  have hwiped : p.Underway s wiped :=
    ⟨hfresh.confined hroot, fun l hl => hfresh.directoryAt hl⟩
  have hapart := h.disjoint.apart_cache hroot
    (l := generatedIn (p.paths.cacheAt s.files.here)) (List.prefix_append _ _)
  have hinside : wiped.files.view (p.paths.tempAt s.files.here ++ [utf8 "il2cppOutput"]) =
    View.fresh := hfresh.inside
  obtain ⟨hsource, hfits, hlays⟩ := Staging.lays_of_copyTree hfresh.plain h.leadsCache.zero htemp.zero
    hname hname (by rw [hfresh.here, h.leadsCache.location, htemp.location]; exact hapart.symm)
    (by rw [hfresh.here, htemp.left]; simp)
    (by rw [hfresh.here, hfresh.logPlaces, htemp.location]; exact h.not_log hroot) hcopy
  rw [hfresh.here, h.leadsCache.location, htemp.location, hinside,
    View.entered_eq (by simp [View.fresh, View.entered])] at hfits hlays
  have hrebuilds := hfresh.trans hlays.toRebuilds
  have ht : p.Underway s t := ⟨hrebuilds.confined hroot, fun l hl => hrebuilds.directoryAt hl⟩
  have htHere := ht.here_eq
  have hkept := h.view_cache hwiped (l := generatedIn (p.paths.cacheAt s.files.here))
    (List.prefix_append _ _)
  have hkept' := h.view_cache ht (l := generatedIn (p.paths.cacheAt s.files.here))
    (List.prefix_append _ _)
  refine ⟨ht, ⟨_, hrebuilds⟩, ?_, ?_, ?_, ?_⟩
  · rw [htHere]
    exact hfresh.plain.isDirectory_mono ht.confined.plain h.leadsCache.zero Staging.isName_generated
      hlays.here (fun l _ => hlays.kept l) hsource
  · rw [htHere]
    exact hlays.found
  · rw [htHere, ht.confined.here, hkept', ← hkept]
    exact hfits
  · rw [ht.confined.here, hkept', ← hkept]
    exact hlays.inside.symm

theorem leadsGenerated : Path.Leads s.files.here (Staging.generated s.here p.paths.temp)
    (generatedIn (p.paths.tempAt s.files.here)) [] := h.leadsTemp.join Staging.isName_generated

theorem leadsData : Path.Leads s.files.here
    (Path.join (Staging.generated s.here p.paths.temp) (utf8 "Data"))
    (generatedIn (p.paths.tempAt s.files.here) ++ [utf8 "Data"]) [] :=
  h.leadsGenerated.join Staging.isName_data

section Generated

variable (hgenerated : p.HasGenerated s)
include hgenerated

theorem directoryAt_cache :
    (s.files.view (generatedIn (p.paths.cacheAt s.files.here))).directoryAt [] = true := by
  obtain ⟨-, -, hdirectory⟩ :=
    (h.plain.isDirectory_join_iff h.leadsCache.zero Staging.isName_generated).mp hgenerated.source
  rw [h.leadsCache.location] at hdirectory
  rwa [view_directoryAt_nil]

/-- The generated sources are those of the cache. -/
theorem view_generated (rel : Location) :
    s.files.view (generatedIn (p.paths.tempAt s.files.here)) rel =
      if rel = [] then View.fresh []
      else (s.files.view (generatedIn (p.paths.cacheAt s.files.here)) rel).map Entry.copied := by
  rw [← hgenerated.laid]
  exact View.overlay_fresh h.closed (h.directoryAt_cache hgenerated) _ rel

theorem directoryAt_generated (rel : Location) :
    (s.files.view (generatedIn (p.paths.tempAt s.files.here))).directoryAt rel =
      (s.files.view (generatedIn (p.paths.cacheAt s.files.here))).directoryAt rel := by
  by_cases hrel : rel = []
  · subst hrel
    rw [h.directoryAt_cache hgenerated]
    unfold View.directoryAt
    rw [h.view_generated hgenerated, if_pos rfl]
    rfl
  · unfold View.directoryAt
    rw [h.view_generated hgenerated, if_neg hrel]
    cases s.files.view (generatedIn (p.paths.cacheAt s.files.here)) rel with
    | none => rfl
    | some entry => cases entry <;> rfl

/-- No path of a generated source is too long. -/
theorem length_lt_generated {rel : Location} (hrel : rel ≠ [])
    (hne : s.files.view (generatedIn (p.paths.tempAt s.files.here)) rel ≠ none) :
    (rel.foldl Path.join (Staging.generated s.here p.paths.temp)).length < maxPath := by
  refine hgenerated.fits.length_lt h.closed fun hnone => hne ?_
  rw [h.view_generated hgenerated, if_neg hrel, hnone]
  rfl

theorem length_lt_file {file : Text}
    (hfile : s.files.get? (dataIn (generatedIn (p.paths.tempAt s.files.here)) folder ++ [file]) ≠
      none) :
    (Path.join (Path.join (Path.join (Staging.generated s.here p.paths.temp) (utf8 "Data")) folder)
      file).length < maxPath := by
  refine h.length_lt_generated hgenerated (List.cons_ne_nil (utf8 "Data") [folder, file]) ?_
  unfold dataIn at hfile
  rwa [List.append_assoc, List.append_assoc] at hfile

/-- A directory for data files is found if the cache has it. -/
theorem isDirectory_folder (hname : IsName folder) : s.files.isDirectory (Path.join
      (Path.join (Staging.generated s.here p.paths.temp) (utf8 "Data")) folder) =
    (s.files.view (generatedIn (p.paths.cacheAt s.files.here))).directoryAt
      [utf8 "Data", folder] := by
  have hgeneratedName := Staging.isName_generated
  have hdataName := Staging.isName_data
  rw [← h.directoryAt_generated hgenerated, Bool.eq_iff_iff,
    h.plain.isDirectory_join_iff h.leadsData.zero hname, reaches_join hdataName,
    Path.location_join hdataName, h.leadsGenerated.location]
  have hview : ∀ rel, s.files.directoryAt (generatedIn (p.paths.tempAt s.files.here) ++ rel) =
      (s.files.view (generatedIn (p.paths.tempAt s.files.here))).directoryAt rel := fun _ => rfl
  rw [List.append_assoc, hview, hview]
  refine ⟨fun hall => hall.2.2, fun hdirectory => ⟨⟨?_, ?_⟩, ?_, hdirectory⟩⟩
  · obtain ⟨hq, -, hroot⟩ := (h.plain.isDirectory_join_iff h.leadsTemp.zero hgeneratedName).mp
      hgenerated.found
    exact (reaches_join hgeneratedName).mpr ⟨hq, hroot⟩
  · rw [h.directoryAt_generated hgenerated] at hdirectory ⊢
    obtain ⟨mode, hget⟩ := View.directoryAt_iff.mp hdirectory
    exact h.closed.directoryAt (List.cons_ne_nil folder []) (by
      rw [List.singleton_append, hget]
      simp)
  · obtain ⟨mode, hget⟩ := View.directoryAt_iff.mp hdirectory
    exact h.length_lt_generated hgenerated (List.cons_ne_nil _ _) (by rw [hget]; simp)

/-- The data files for a directory are put in place if the cache has any. -/
theorem places_folder (hfolder : Staging.DataFolder folder ending)
    (hrun : ((p.placeFolder s.here folder ending).run s).run = (.ok (), t)) :
    p.Underway s t ∧
    s.Rebuilds t (p.paths.managedAt s.files.here ++ [folder])
      (if (s.files.view (generatedIn (p.paths.cacheAt s.files.here))).directoryAt
          [utf8 "Data", folder] then
        View.matching ending
          (s.files.view (dataIn (generatedIn (p.paths.tempAt s.files.here)) folder))
          (s.files.view (p.paths.managedAt s.files.here ++ [folder])).entered
      else s.files.view (p.paths.managedAt s.files.here ++ [folder])) ∧
    ((s.files.view (generatedIn (p.paths.cacheAt s.files.here))).directoryAt
      [utf8 "Data", folder] = true → p.HasFolder t folder ending) := by
  have hroot : p.paths.Root s.files.here (p.paths.managedAt s.files.here ++ [folder]) :=
    .data hfolder.isData
  unfold placeFolder at hrun
  rw [Staging.run_doIf, h.isDirectory_folder hgenerated hfolder.isName] at hrun
  cases hthere : (s.files.view (generatedIn (p.paths.cacheAt s.files.here))).directoryAt
      [utf8 "Data", folder] with
  | false =>
    rw [hthere, if_neg (by simp)] at hrun
    obtain rfl : s = t := congrArg Prod.snd hrun
    exact ⟨⟨(Session.Rebuilds.refl h.plain _).confined hroot, fun _ _ hl => hl⟩,
      .refl h.plain _, by simp⟩
  | true =>
    rw [hthere, if_pos rfl] at hrun
    have hdata := h.leadsData
    have hlocation : Path.location s.files.here
        (Path.join (Staging.generated s.here p.paths.temp) (utf8 "Data")) ++ [folder] =
        dataIn (generatedIn (p.paths.tempAt s.files.here)) folder :=
      congrArg (· ++ [folder]) hdata.location
    have hapart : Apart (dataIn (generatedIn (p.paths.tempAt s.files.here)) folder)
        (p.paths.managedAt s.files.here ++ [folder]) :=
      (h.disjoint.apart_generated (managed_inside folder)).mono
        ((List.prefix_append _ _).trans (List.prefix_append _ _)) List.prefix_rfl
    have hlays := Staging.lays_of_copyMatching h.plain hdata.zero
      h.leadsManaged.zero hfolder.isName hfolder.isName
      (by rw [hlocation, h.leadsManaged.location]; exact hapart)
      (by
        rw [hlocation]
        exact fun file => h.length_lt_file hgenerated)
      (by rw [h.leadsManaged.left]; simp) hrun
    rw [hlocation, h.leadsManaged.location] at hlays
    obtain ⟨hfits, hlays⟩ := hlays
    have ht := Underway.of_lays hroot hlays
    have htHere := ht.here_eq
    have hsource : t.files.view (dataIn (generatedIn (p.paths.tempAt s.files.here)) folder) =
        s.files.view (dataIn (generatedIn (p.paths.tempAt s.files.here)) folder) :=
      hlays.view_eq hapart.symm fun l hl hin => h.not_log .generated l hl
        (((List.prefix_append _ _).trans (List.prefix_append _ _)).trans hin)
    refine ⟨ht, hlays.toRebuilds, fun _ => ⟨?_, ?_, ?_⟩⟩
    · rw [htHere]
      exact hlays.found
    · rw [htHere, ht.confined.here, hsource, hlays.inside]
      exact hfits.matching
    · rw [ht.confined.here, hsource, hlays.inside]
      exact View.matching_matching _ _ _

end Generated

end Ready

end Plan

end NativeBuild
