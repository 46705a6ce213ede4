import NativeBuild.Proofs.Build.Policy

/-!
# What the work before staging changes

Before staging, a build works in its cache and its temporary directory, makes the files directly in
the managed directory writable, and writes what its tools are told of. The collaborators and the
processes do what they do. So the work keeps to every policy that permits all this.
-/
namespace NativeBuild

open FileSystem

namespace BuildPaths

/-- Where the temporary directory is. -/
def tempAt (paths : BuildPaths) (here : Location) : Location := Path.location here paths.temp

/-- Where the cache is. -/
def cacheAt (paths : BuildPaths) (here : Location) : Location := Path.location here paths.cache

/-- Where the staging area is. -/
def stagingAt (paths : BuildPaths) (here : Location) : Location := Path.location here paths.staging

/-- Where the generated sources of a directory are. -/
def generatedIn (dir : Location) : Location := dir ++ [utf8 "il2cppOutput"]

/-- Where the native libraries of a directory are. -/
def nativeIn (dir : Location) : Location := dir ++ [utf8 "Native"]

/-- Where the managed assemblies are. -/
def managedAt (paths : BuildPaths) (here : Location) : Location :=
  paths.stagingAt here ++ [utf8 "Managed"]

/-- Where the stamp of the cache is. -/
def stampAt (paths : BuildPaths) (here : Location) : Location :=
  paths.cacheAt here ++ [Staging.stampFile]

end BuildPaths

variable {π : Policy}

/-- A policy permits a plan to do its work before staging. -/
structure Plan.Permits (p : Plan) (π : Policy) : Prop where
  zeroTemp : 0 ∉ p.paths.temp
  zeroCache : 0 ∉ p.paths.cache
  zeroStaging : 0 ∉ p.paths.staging
  zeroSources : ∀ source ∈ p.options.additionalSources, 0 ∉ source
  temp : Staging.MayReach π (p.paths.tempAt π.start.here) (Path.left π.start.here p.paths.temp)
  reach : Staging.MayReach π (p.paths.cacheAt π.start.here) (Path.left π.start.here p.paths.cache)
  cache : ∀ l, p.paths.cacheAt π.start.here <+: l → l ≠ p.paths.stampAt π.start.here → π.Free l
  /-- Even the stamp may be made a directory, or be made writable. -/
  stamp : π.MayMake (p.paths.stampAt π.start.here) ∧ π.MayTouch (p.paths.stampAt π.start.here)
  extraTypes : π.MayWrite (p.paths.tempAt π.start.here ++ [Staging.extraTypesFile])
  managed : ∀ name, Path.IsName name → π.MayTouch (p.paths.managedAt π.start.here ++ [name])
  /-- The file of preserved types stands beside the managed directory. -/
  preserved : ∀ dir, dir = p.paths.stagingAt π.start.here ∨ dir = p.paths.managedAt π.start.here →
    π.MayWrite (dir ++ [Build.preservedTypesFile])
  stripper : ∀ strip, p.collaborators.stripper ≠ some (.custom strip)
  builder : ∀ builder ∈ p.collaborators.nativeBuilder, ∃ n : NativeLibrary, builder = n.builder ∧
    (n.cache = [] ∨ 0 ∉ n.cache ∧
      p.paths.cacheAt π.start.here <+: Path.location π.start.here n.cache ∧
      ∀ l ∈ Path.left π.start.here n.cache, π.MayMake l)
  usedTypes : ∀ query ∈ p.collaborators.usedTypes, π.Trusts query
  linker : ∀ query ∈ p.collaborators.linker, π.Trusts query
  provider : ∀ query ∈ p.collaborators.extraTypes, π.Trusts query
  moreSources : ∀ query ∈ p.collaborators.moreSources, ∀ dir, π.Trusts (query dir)
  progress : ∀ callback ∈ p.collaborators.progress, ∀ told, π.Trusts (callback told)
  diagnostics : ∀ sink ∈ p.collaborators.diagnostics, ∀ d, π.Trusts (sink d)
  launcher : ∀ number spec fs edit, .change edit ∈ (p.launcher number spec fs).steps → π.Allows edit

namespace Plan

open Build

variable {p : Plan}

theorem preserves_checkCancelled : Preserves π.HoldsFor checkCancelled := by
  refine Preserves.get.bind fun s => ?_
  split
  · exact (preserves_log _ _ _).bind fun _ => preserves_fail _
  · exact .pure ()

theorem preserves_enter
    (h : ∀ callback ∈ p.collaborators.progress, ∀ told, π.Trusts (callback told))
    (phase : Phase) : Preserves π.HoldsFor (p.enter phase) := by
  have hphase : Preserves π.HoldsFor (modify fun s => { s with phase } : BuildM Unit) :=
    preserves_modify fun _ => rfl
  refine preserves_checkCancelled.bind fun _ => hphase.bind fun _ => ?_
  refine (preserves_record _).bind fun _ => (preserves_log _ _ _).bind fun _ => ?_
  cases hprogress : p.collaborators.progress with
  | none => exact .pure ()
  | some callback => exact preserves_tell (h callback hprogress _)

theorem preserves_init : Preserves π.HoldsFor p.init := by
  intro s hs
  have hinit : ((p.init).run s).run = exec p.init s := rfl
  unfold PreservesFrom
  rw [hinit, (p.exec_init s).1]
  exact hs

theorem preserves_onLine (isError : Bool) (line : Text) (w : Watch) :
    Preserves π.HoldsFor (onLine isError line w) := by
  unfold onLine
  split
  · exact (preserves_log _ _ _).bind fun _ => .pure _
  · exact (preserves_log _ _ _).bind fun _ => .pure _

section Watch

variable (hsink : ∀ sink ∈ p.collaborators.diagnostics, ∀ d, π.Trusts (sink d))
include hsink

theorem preserves_report (d : Diagnostic) : Preserves π.HoldsFor (p.report d) := by
  unfold report
  cases h : p.collaborators.diagnostics with
  | some sink => exact preserves_tell (hsink sink h d)
  | none => exact (preserves_record _).bind fun _ => preserves_liftSession (.log _ _ _)

theorem preserves_watch (file : Path) (look : Diagnostic.Tail.Look) (w : Watch) :
    Preserves π.HoldsFor (p.watch file look w) := by
  rw [watch_eq]
  refine (preserves_liftSession (Diagnostic.onlyLogs_contentOf file)).bind fun content => ?_
  refine Preserves.bind (.forM fun e _ => ?_) fun _ => .pure _
  unfold Diagnostic.Event.tell
  split
  · exact preserves_report hsink _
  · exact preserves_liftSession (Diagnostic.onlyLogs_note _ _)

end Watch

/-- The part of generating before the cache is stamped: the arguments that the generator
ran with. -/
def generateSources (p : Plan) : BuildM (List Text) := do
  let s ← get
  let arguments ← Build.succeed
    (p.generateArguments s.session.files (p.managed s.session.here))
  checkCancelled
  let types ← p.writeExtraTypes
  let arguments := if types = [] then arguments
    else arguments ++ [quoted "--extra-types-file=" types]
  p.runGenerator arguments none
  return arguments

theorem generate_eq (p : Plan) : p.generate = do
    let arguments ← p.generateSources
    let _ ← Build.perform (Staging.stamp p.paths.cache (Text.join (utf8 " ") arguments))
    return () := by
  simp [generate, generateSources, bind_assoc]

namespace Permits

variable (h : p.Permits π)
include h

theorem leadsTemp : Path.Leads π.start.here p.paths.temp (p.paths.tempAt π.start.here)
    (Path.left π.start.here p.paths.temp) := Path.leads _ h.zeroTemp

theorem leadsCache : Path.Leads π.start.here p.paths.cache (p.paths.cacheAt π.start.here)
    (Path.left π.start.here p.paths.cache) := Path.leads _ h.zeroCache

theorem leadsStaging : Path.Leads π.start.here p.paths.staging (p.paths.stagingAt π.start.here)
    (Path.left π.start.here p.paths.staging) := Path.leads _ h.zeroStaging

/-- Everything on the way to a location in the cache may be made. -/
theorem mayMake_onWay {l dir : Location} (hdir : p.paths.cacheAt π.start.here <+: dir)
    (hl : l <+: dir) : π.MayMake l := by
  by_cases hcache : p.paths.cacheAt π.start.here <+: l
  · by_cases hstamp : l = p.paths.stampAt π.start.here
    · exact hstamp ▸ h.stamp.1
    · exact (h.cache l hcache hstamp).mayMake
  · exact h.reach l (.inl ((List.prefix_or_prefix_of_prefix hl hdir).resolve_right hcache))

theorem mayTouch_below {l : Location} (hl : p.paths.cacheAt π.start.here <+: l) :
    π.MayTouch l := by
  by_cases hstamp : l = p.paths.stampAt π.start.here
  · exact hstamp ▸ h.stamp.2
  · exact (h.cache l hl hstamp).mayWrite.mayTouch

theorem mayReach_below (name : Text) :
    Staging.MayReach π (p.paths.cacheAt π.start.here ++ [name]) [] := by
  intro l hl
  exact h.mayMake_onWay (List.prefix_append _ _) (hl.resolve_right List.not_mem_nil)

/-- A directory of the cache is free with all below it, if it is not the stamp. -/
theorem freeBelow {name : Text} (hname : name ≠ Staging.stampFile) :
    π.FreeBelow (p.paths.cacheAt π.start.here ++ [name]) := by
  intro l hl
  refine h.cache l ((List.prefix_append _ _).trans hl) fun hstamp => ?_
  rw [hstamp, BuildPaths.stampAt] at hl
  have heq := hl.eq_of_length (by simp)
  exact hname (List.append_cancel_left heq |> List.singleton_inj.mp)

end Permits

end Plan

/-- The names on the way to the current directory. -/
theorem Policy.HoldsFor.isName {s : Build.State} (hs : π.HoldsFor s) :
    ∀ name ∈ π.start.here, Path.IsName name :=
  Policy.HoldsIn.files hs |>.here ▸ (Policy.HoldsIn.files hs).plain.here

theorem Policy.HoldsFor.here {s : Build.State} (hs : π.HoldsFor s) :
    s.session.here = pathOf π.start.here := Policy.HoldsIn.here hs

namespace Plan.Permits

open Build

variable {p : Plan} (h : p.Permits π)
include h

theorem preserves_writePreserved {managed : Path}
    (hmanaged : Path.Leads π.start.here managed (p.paths.managedAt π.start.here) [])
    (types : List Text) : Preserves π.HoldsFor (writePreserved managed types) := by
  unfold writePreserved
  split
  · exact .pure []
  have hname : Path.IsName preservedTypesFile := by decide +kernel
  obtain ⟨dir, hparent, hdir⟩ : ∃ dir, Path.Leads π.start.here (Path.parent managed) dir [] ∧
      (dir = p.paths.stagingAt π.start.here ∨ dir = p.paths.managedAt π.start.here) := by
    obtain hparent | hparent := Path.Leads.parent hmanaged
    · exact ⟨_, hparent, .inl rfl⟩
    · exact ⟨_, hparent, .inr rfl⟩
  have hfile := hparent.join hname
  have hwrite := FileAction.preserves_write hfile.zero (linesOf types)
    (hfile.location.symm ▸ h.preserved dir hdir)
  refine (preserves_act hwrite).bind fun result => ?_
  cases result with
  | ok => exact .pure _
  | error => exact preserves_fail _

omit h in
theorem preserves_onStripLine (isError : Bool) (line : Text) (errors : List Text) :
    Preserves π.HoldsFor (onStripLine isError line errors) := by
  unfold onStripLine
  dsimp only
  split
  · exact (preserves_log _ _ _).bind fun _ => .pure _
  · exact (preserves_log _ _ _).bind fun _ => .pure _

theorem preserves_runStripTool {managed : Path}
    (hmanaged : Path.Leads π.start.here managed (p.paths.managedAt π.start.here) []) (tool : Path) :
    Preserves π.HoldsFor (runStripTool p.launcher tool (p.stripRequest managed)) := by
  unfold runStripTool
  split
  · exact preserves_log _ _ _
  refine Preserves.bind ?_ fun spec => ?_
  · refine (preserves_askIfThere h.usedTypes).bind fun types => ?_
    refine (h.preserves_writePreserved hmanaged _).bind fun preserved => ?_
    exact (preserves_askIfThere h.linker).bind fun linker =>
      (preserves_log _ _ _).bind fun _ => .pure _
  · refine (preserves_launch preserves_onStripLine (fun x => .pure x)
      (fun number fs => h.launcher number spec fs) _).bind fun ended => ?_
    obtain ⟨result, errors⟩ := ended
    dsimp only
    split
    · exact preserves_fail _
    · exact .pure ()
    · exact preserves_fail _

theorem preserves_strip : Preserves π.HoldsFor p.strip := by
  intro s hs
  have hmanaged := Staging.leads_managed h.leadsStaging hs.isName
  rw [← hs.here] at hmanaged
  refine PreservesFrom.get_bind ?_
  refine (preserves_perform (Staging.preserves_allowWriting hmanaged h.managed) s hs).bind
    fun _ after _ hafter => ?_
  cases hstripper : p.collaborators.stripper with
  | none => exact preserves_log _ _ _ after hafter
  | some stripper =>
    refine (preserves_record _ after hafter).bind fun _ asked _ hasked => ?_
    cases stripper with
    | tool tool => exact h.preserves_runStripTool hmanaged tool asked hasked
    | custom strip => exact absurd hstripper (h.stripper strip)

/-- An additional source is copied into its directory, or onto a directory and so refused. -/
theorem preserves_copySource {dir source : Path}
    (hdir : Path.Leads π.start.here dir
      (p.paths.cacheAt π.start.here ++ [utf8 "additionalCppFiles"]) [])
    (hsource : source ∈ p.options.additionalSources) :
    Preserves π.HoldsIn (copySource dir source) := by
  have hslash := Path.slash_not_mem_fileName source
  refine Staging.preserves_attempt (FileAction.preserves_copyFile ?_ ?_ true)
  · exact Path.zero_not_mem_join hdir.zero fun hzero =>
      h.zeroSources source hsource (Path.mem_of_mem_fileName hzero)
  have hbelow : π.FreeBelow (p.paths.cacheAt π.start.here ++ [utf8 "additionalCppFiles"]) :=
    h.freeBelow (by decide +kernel)
  rw [Path.location_join_of_relative (Path.isAbsolute_of_slash_not_mem hslash), hdir.location,
    Path.components_of_slash_not_mem hslash]
  split
  · exact hbelow.free.mayWrite
  rw [Path.goTo]
  split
  · exact hbelow.free.mayWrite
  split
  · rw [List.dropLast_concat]
    refine (h.cache _ List.prefix_rfl fun hstamp => ?_).mayWrite
    simp [BuildPaths.stampAt] at hstamp
  · exact (hbelow.name _).free.mayWrite

theorem preserves_prepare : Preserves π.HoldsFor p.prepare := by
  intro s hs
  have hgenerated := Staging.leads_generated h.leadsCache hs.isName
  have hadditional := Staging.leads_additional h.leadsCache hs.isName
  rw [← hs.here] at hgenerated hadditional
  refine PreservesFrom.get_bind ?_
  refine PreservesFrom.bind (preserves_perform
    (Staging.preserves_ensureDirectory h.leadsTemp h.temp) s hs) fun _ s₁ _ hs₁ => ?_
  refine PreservesFrom.bind (preserves_perform
    (Staging.preserves_ensureDirectory hgenerated (h.mayReach_below _)) s₁ hs₁) fun _ s₂ _ hs₂ => ?_
  have htouch : ∀ name, Path.IsName name →
      π.MayTouch (p.paths.cacheAt π.start.here ++ [utf8 "il2cppOutput"] ++ [name]) := fun name _ =>
    h.mayTouch_below ((List.prefix_append _ _).trans (List.prefix_append _ _))
  refine PreservesFrom.bind (preserves_perform
    (Staging.preserves_allowWriting hgenerated htouch) s₂ hs₂) fun _ s₃ _ hs₃ => ?_
  refine PreservesFrom.bind (preserves_perform
    (Staging.preserves_recreate hadditional (h.freeBelow (by decide +kernel)) (h.mayReach_below _))
      s₃ hs₃) fun _ s₄ _ hs₄ => ?_
  refine PreservesFrom.bind (Preserves.forM (fun source hsource =>
    preserves_perform (h.preserves_copySource hadditional hsource)) s₄ hs₄) fun _ s₅ _ hs₅ => ?_
  cases hmore : p.collaborators.moreSources with
  | none => exact hs₅
  | some moreSources => exact preserves_ask (h.moreSources moreSources hmore _) s₅ hs₅

theorem preserves_writeExtraTypes : Preserves π.HoldsFor p.writeExtraTypes := by
  refine (preserves_askIfThere h.provider).bind fun provided => ?_
  dsimp only
  split
  · exact .pure _
  refine (preserves_perform (Staging.preserves_ensureDirectory h.leadsTemp h.temp)).bind fun _ => ?_
  intro s hs
  refine PreservesFrom.get_bind ?_
  have hfile := (h.leadsTemp.join (show Path.IsName Staging.extraTypesFile by decide +kernel)).absolute
    hs.isName
  rw [← hs.here] at hfile
  have hwrite := FileAction.preserves_write hfile.zero
    (linesOf (Dictionary.sorted (p.options.extraTypes ++ provided.getD [])))
    (hfile.location.symm ▸ h.extraTypes)
  refine (preserves_act hwrite s hs).bind fun result written _ hwritten => ?_
  cases result with
  | ok => exact ((preserves_log _ _ _).bind fun _ => .pure _) written hwritten
  | error => exact preserves_fail _ written hwritten

theorem preserves_runProcess {here : Path} (hhere : here = pathOf π.start.here)
    (hnames : ∀ name ∈ π.start.here, Path.IsName name) {spec : ProcessSpec}
    (hdirectory : spec.directory = Path.absoluteNormal here p.paths.cache) :
    Preserves π.HoldsFor (p.runProcess here spec) := by
  subst hhere
  have hcache := hdirectory ▸ h.leadsCache.absoluteNormal hnames
  have hgenerated := Staging.leads_generated h.leadsCache hnames
  have hfile := hgenerated.join (show Path.IsName Staging.diagnosticsFile by decide +kernel)
  have hremove : π.FreeBelow _ :=
    (h.freeBelow (show utf8 "il2cppOutput" ≠ Staging.stampFile by decide +kernel)).name
      Staging.diagnosticsFile
  refine (preserves_perform (Staging.preserves_ensureDirectory hcache fun l hl => ?_)).bind fun _ => ?_
  · exact h.reach l (.inl (hl.resolve_right List.not_mem_nil))
  refine (preserves_perform (Staging.preserves_attempt (FileAction.preserves_removeIfThere hfile.zero
    (hfile.location.symm ▸ hremove)))).bind fun _ => ?_
  refine preserves_checkCancelled.bind fun _ => (preserves_log _ _ _).bind fun _ => ?_
  refine (preserves_launch preserves_onLine (preserves_watch h.diagnostics _ _)
    (fun number fs => h.launcher number spec fs) _).bind fun ended => ?_
  obtain ⟨result, w⟩ := ended
  refine (preserves_watch h.diagnostics _ _ w).bind fun w => ?_
  split
  · exact preserves_fail _
  · exact preserves_log _ _ _
  · exact preserves_fail _

theorem preserves_runGenerator (arguments : List Text) {builder : Option NativeBuilder}
    (hbuilder : ∀ b ∈ builder, b ∈ p.collaborators.nativeBuilder) :
    Preserves π.HoldsFor (p.runGenerator arguments builder) := by
  intro s hs
  refine PreservesFrom.get_bind ?_
  dsimp only
  split
  · next b =>
    obtain ⟨n, rfl, -⟩ := h.builder b (hbuilder b rfl)
    refine (preserves_ask (fun fs hfs => hfs) s hs).bind fun spec asked hask hasked => ?_
    obtain ⟨after, hexec, -⟩ := exec_ask_files (n.builder.setUp _) s
    obtain rfl := Except.ok.inj (congrArg Prod.fst (hexec.symm.trans hask))
    exact h.preserves_runProcess hs.here hs.isName rfl asked hasked
  · exact h.preserves_runProcess hs.here hs.isName rfl s hs

/-- The generator runs before the cache is stamped with its arguments. -/
theorem preserves_generateSources : Preserves π.HoldsFor p.generateSources := by
  refine Preserves.get.bind fun s => (preserves_succeed _).bind fun arguments => ?_
  refine preserves_checkCancelled.bind fun _ => h.preserves_writeExtraTypes.bind fun types => ?_
  exact (h.preserves_runGenerator _ (by simp)).bind fun _ => .pure _

/-- If the policy permits the stamp to be written, it permits the whole phase. -/
theorem preserves_generate (hstamp : π.MayWrite (p.paths.stampAt π.start.here)) :
    Preserves π.HoldsFor p.generate := by
  rw [generate_eq]
  refine h.preserves_generateSources.bind fun arguments => ?_
  exact (preserves_perform (Staging.preserves_stamp h.leadsCache hstamp _)).bind fun _ => .pure _

theorem preserves_compileLink {builder : NativeBuilder}
    (hbuilder : builder ∈ p.collaborators.nativeBuilder) (source : Path) :
    Preserves π.HoldsFor (p.compileLink builder source) := by
  obtain ⟨n, rfl, hcache⟩ := h.builder builder hbuilder
  refine Preserves.bind ?_ fun _ => ?_
  · intro s hs
    refine (preserves_ask (fun fs hfs => hfs) s hs).bind fun dir asked hask hasked => ?_
    obtain ⟨after, hexec, -⟩ := exec_ask_files n.builder.cache s
    obtain rfl := Except.ok.inj (congrArg Prod.fst (hexec.symm.trans hask))
    split
    · exact hasked
    · next hne =>
      obtain ⟨hzero, hinside, hleft⟩ := hcache.resolve_left hne
      have hdir := Path.leads π.start.here hzero
      refine PreservesFrom.bind (preserves_perform (Staging.preserves_ensureDirectory hdir ?_)
        asked hasked) fun _ made _ hmade =>
          preserves_perform (Staging.preserves_allowWriting hdir ?_) made hmade
      · exact fun l hl => hl.elim (h.mayMake_onWay hinside) (hleft l)
      · exact fun name _ => h.mayTouch_below (hinside.trans (List.prefix_append _ _))
  have hnative := Staging.leads_native h.leadsCache
  refine (preserves_perform (Staging.preserves_ensureDirectory h.leadsCache h.reach)).bind
    fun _ => ?_
  refine (preserves_perform (Staging.preserves_ensureDirectory hnative fun l hl => ?_)).bind
    fun _ => ?_
  · exact hl.elim (h.mayMake_onWay (List.prefix_append _ _)) fun hback => h.reach l (.inr hback)
  refine Preserves.bind ?_ fun arguments => h.preserves_runGenerator arguments ?_
  · unfold compileLinkArguments
    rw [hbuilder]
    refine (preserves_succeed _).bind fun defines => (preserves_succeed _).bind fun profile => ?_
    refine (preserves_ask fun fs hfs => hfs).bind fun library => ?_
    exact (preserves_ask fun fs hfs => hfs).bind fun first => Preserves.get.bind fun s => .pure _
  · rintro b ⟨⟩
    exact hbuilder

/-- All phases before staging keep to a policy that permits their work and the stamp. -/
theorem preserves_passAll (hstamp : π.MayWrite (p.paths.stampAt π.start.here)) (source : Path)
    {phases : List Phase} (hphases : .stage ∉ phases) :
    Preserves π.HoldsFor (p.passAll source phases) := by
  induction phases with
  | nil => exact .pure ()
  | cons phase phases ih =>
    rw [List.mem_cons, not_or] at hphases
    refine Preserves.bind ((preserves_enter h.progress phase).bind fun _ => ?_)
      fun _ => ih hphases.2
    cases phase with
    | init => exact preserves_init
    | strip => exact h.preserves_strip
    | prepare => exact h.preserves_prepare
    | generate => exact h.preserves_generate hstamp
    | compileLink =>
      simp only [work]
      split
      · next builder hbuilder => exact h.preserves_compileLink hbuilder source
      · exact .pure ()
    | stage => exact absurd rfl hphases.1
    | done => exact .pure ()

end Plan.Permits

end NativeBuild
