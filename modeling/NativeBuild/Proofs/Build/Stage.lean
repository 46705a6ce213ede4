import NativeBuild.Proofs.Build.Phases

/-!
# What staging changes

Staging copies the native libraries, makes the generated sources of the temporary directory anew,
and copies the data files among them. So it keeps to every policy under which the four places that
it publishes to are free.
-/
namespace NativeBuild

open FileSystem

namespace Build

/-- Does a task if a directory is there. -/
def performIf (dir : Path) (task : Job Unit) : BuildM Unit := do
  if (← get).session.files.isDirectory dir then perform task

variable {π : Policy}

theorem preserves_performIf {dir : Path} {task : Job Unit} (h : Preserves π.HoldsIn task) :
    Preserves π.HoldsFor (performIf dir task) := by
  refine Preserves.get.bind fun s => ?_
  split
  · exact preserves_perform h
  · exact .pure ()

end Build

namespace Plan

open Build

/-- Makes the generated sources of the temporary directory anew, from those of the cache. -/
def publishGenerated (p : Plan) (here : Path) : BuildM Unit := do
  let target := Staging.generated here p.paths.temp
  perform (Staging.recreate target)
  perform (Staging.copyTree (Staging.generated here p.paths.cache) target true)

/-- Copies the data files among the generated sources. -/
def publishData (p : Plan) (here : Path) : BuildM Unit := do
  let target := Staging.generated here p.paths.temp
  let managed := p.managed here
  performIf (Staging.metadataFolder target)
    (Staging.copyMetadata p.paths.temp (Path.join managed (utf8 "Metadata")))
  performIf (Staging.resourcesFolder target)
    (Staging.copyResources p.paths.temp (Path.join managed (utf8 "Resources")))

theorem stage_eq (p : Plan) : p.stage = (do
    let here := (← get).session.here
    performIf (Staging.native p.paths.cache)
      (Staging.copyTree (Staging.native p.paths.cache) (Staging.native p.paths.staging) true)
    if (← get).session.files.isDirectory (Staging.generated here p.paths.cache) then do
      p.publishGenerated here
      p.publishData here
      Build.log .info (utf8 "invoker")
        (utf8 "Staged native output into " ++ p.paths.staging)) := by
  have hif (c : Bool) (m m' : BuildM Unit) (k : Unit → BuildM Unit) :
      ((if c = true then m else m') >>= k) = if c = true then m >>= k else m' >>= k := by
    cases c <;> rfl
  unfold stage publishGenerated publishData performIf
  simp only [bind_assoc, hif, pure_bind]

end Plan

/-- A policy permits a plan to publish. -/
structure Plan.PermitsStaging (p : Plan) (π : Policy) : Prop where
  zeroTemp : 0 ∉ p.paths.temp
  zeroStaging : 0 ∉ p.paths.staging
  native : π.FreeBelow (BuildPaths.nativeIn (p.paths.stagingAt π.start.here))
  generated : π.FreeBelow (BuildPaths.generatedIn (p.paths.tempAt π.start.here))
  data : ∀ name, name = utf8 "Metadata" ∨ name = utf8 "Resources" → ∀ file, Path.IsName file →
    π.MayWrite (p.paths.managedAt π.start.here ++ [name] ++ [file])
  /-- The directories may be made, with all on the way to them. -/
  reachNative : Staging.MayReach π (BuildPaths.nativeIn (p.paths.stagingAt π.start.here))
    (Path.left π.start.here p.paths.staging)
  reachGenerated : Staging.MayReach π (BuildPaths.generatedIn (p.paths.tempAt π.start.here)) []
  reachData : ∀ name, name = utf8 "Metadata" ∨ name = utf8 "Resources" →
    Staging.MayReach π (p.paths.managedAt π.start.here ++ [name]) []


open Build in
/-- Staging keeps to a policy that permits to publish. -/
theorem Plan.PermitsStaging.preserves_stage {π : Policy} {p : Plan} (h : p.PermitsStaging π) :
    Preserves π.HoldsFor p.stage := by
  intro s hs
  have hhere := hs.isName
  have htemp := Path.leads π.start.here h.zeroTemp
  have hstaging := Path.leads π.start.here h.zeroStaging
  have hgenerated := Staging.leads_generated htemp hhere
  have hmanaged := Staging.leads_managed hstaging hhere
  rw [stage_eq]
  refine PreservesFrom.get_bind ?_
  rw [hs.here]
  have hnativeName : Path.IsName (Path.fileName (Staging.native p.paths.cache)) := by
    rw [Staging.native, Path.fileName_join Staging.isName_native.slash]
    exact Staging.isName_native
  have hgeneratedName :
      Path.IsName (Path.fileName (Staging.generated (pathOf π.start.here) p.paths.cache)) := by
    rw [Staging.generated, Path.fileName_join Staging.isName_generated.slash]
    exact Staging.isName_generated
  have hnative := Staging.preserves_copyTree hnativeName (Staging.leads_native hstaging) h.native
    h.reachNative true
  have hrecreate := Staging.preserves_recreate hgenerated h.generated h.reachGenerated
  have hcopy := Staging.preserves_copyTree hgeneratedName hgenerated h.generated h.reachGenerated true
  have hdata : ∀ name, name = utf8 "Metadata" ∨ name = utf8 "Resources" → ∀ source ending,
      Preserves π.HoldsIn (Staging.copyMatching source
        (Path.join (p.managed (pathOf π.start.here)) name) ending) := by
    intro name hname source ending
    have hdir : Path.IsName name := by obtain rfl | rfl := hname <;> decide +kernel
    exact Staging.preserves_copyMatching (hmanaged.join hdir) (h.data name hname)
      (h.reachData name hname) ending
  refine (preserves_performIf hnative s hs).bind fun _ between _ hbetween => ?_
  refine (Preserves.get.bind fun looked => ?_) between hbetween
  split
  · refine ((preserves_perform hrecreate).bind fun _ => preserves_perform hcopy).bind fun _ => ?_
    refine Preserves.bind ?_ fun _ => preserves_log _ _ _
    refine (preserves_performIf ?_).bind fun _ => preserves_performIf ?_
    · exact Preserves.get.bind fun _ => hdata _ (.inl rfl) _ _
    · exact Preserves.get.bind fun _ => hdata _ (.inr rfl) _ _
  · exact .pure ()

end NativeBuild
