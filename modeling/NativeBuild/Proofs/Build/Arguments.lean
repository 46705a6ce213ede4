import NativeBuild.Proofs.Build.Coupling
import NativeBuild.Proofs.Build.Tailing
import NativeBuild.Proofs.Shell.Options

/-!
# The command line of the generator

Everything that the generator is told is an option of its own: a switch, or a name with a value that
stands between quotes. The names are fixed, and those that the shared options and the toolchain
bring are new, so each option is on the command line as it was asked for. What is quoted are paths
and the name of the profile. Whatever they are made of, the generator receives them as they are.
-/
namespace NativeBuild

open FileSystem Shell Build
open NativeBuild.Path (IsName)

namespace Shell.Item

@[simp] theorem map_written_switch (on : Bool) (name : String) :
    (switch on name).map written = Plan.switch on name := by
  cases on with
  | false => rfl
  | true => simp [switch, Plan.switch, written]

@[simp] theorem written_valued (name : String) (value : Text) :
    (valued name value).written = Plan.quoted name value := rfl

end Shell.Item

open Shell.Item

namespace BuildOptions

/-- The options that generating, and compiling and linking, have in common. -/
def sharedItems (o : BuildOptions) : List Item :=
  Item.switch o.validatesBarriers "--write-barrier-validation"
    ++ Item.switch o.slicesTime "--incremental-g-c-time-slice=3"
    ++ (if o.baselibDirectory = [] then []
        else [valued "--baselib-directory=" o.baselibDirectory])
    ++ Item.switch true "--avoid-dynamic-library-copy"
    ++ Item.switch true "--dont-deploy-baselib"
    ++ Item.switch true "--profiler-report"

/-- The names that they may have. -/
def sharedNames : List Text :=
  ["--write-barrier-validation", "--incremental-g-c-time-slice=3", "--baselib-directory=",
    "--avoid-dynamic-library-copy", "--dont-deploy-baselib", "--profiler-report"].map utf8

theorem map_written_sharedItems (o : BuildOptions) :
    o.sharedItems.map written = o.sharedArguments := by
  unfold sharedItems sharedArguments
  have hbaselib : (if o.baselibDirectory = [] then []
      else [valued "--baselib-directory=" o.baselibDirectory]).map written =
      if o.baselibDirectory = [] then []
      else [utf8 "--baselib-directory=" ++ Quoting.quote o.baselibDirectory] := by
    split
    · rfl
    · rfl
  simp only [List.map_append, map_written_switch, hbaselib, Plan.switch, validationFlag,
    timeSliceFlag]
  simp

theorem within_sharedItems (o : BuildOptions) (h : 0 ∉ o.baselibDirectory) :
    Within sharedNames o.sharedItems := by
  have hbaselib : Within sharedNames (if o.baselibDirectory = [] then []
      else [valued "--baselib-directory=" o.baselibDirectory]) := by
    split
    · exact within_nil _
    · exact within_valued (by decide) h
  unfold sharedItems
  repeat' apply Within.append
  case h.h.h.h' => exact hbaselib
  all_goals exact within_switch (by decide)

/-- Each of the shared options is there at most once. -/
theorem nodup_sharedItems (o : BuildOptions) : (o.sharedItems.map Item.name).Nodup := by
  have hbaselib : (if o.baselibDirectory = [] then []
      else [valued "--baselib-directory=" o.baselibDirectory]).map Item.name =
      (Item.switch (o.baselibDirectory ≠ []) "--baselib-directory=").map Item.name := by
    by_cases h : o.baselibDirectory = []
    · simp [h, Item.switch]
    · simp [h, Item.switch, valued]
  simp only [sharedItems, List.map_append, hbaselib]
  generalize o.validatesBarriers = b₁, o.slicesTime = b₂, decide (o.baselibDirectory ≠ []) = b₃
  revert b₁ b₂ b₃
  decide

end BuildOptions

namespace Plan

open BuildOptions

variable (p : Plan)

/-- The additional sources in the cache, by increasing name. -/
def sourceNames (fs : FileSystem) (here : Path) : List Text :=
  let dir := Staging.additional here p.paths.cache
  Dictionary.sorted (match fs.list dir with
    | .ok names => names.filter fun name => fs.isFile (Path.join dir name)
    | .error _ => [])

/-- The options that stand in front of the shared ones. -/
def firstItems (fs : FileSystem) (profile : Text) : List Item :=
  let here := pathOf fs.here
  let o := p.options
  Item.switch true "--convert-to-cpp"
    ++ Item.switch o.nullChecks "--emit-null-checks"
    ++ Item.switch o.stacktrace "--enable-stacktrace"
    ++ Item.switch o.arrayBoundsChecks "--enable-array-bounds-check"
    ++ Item.switch o.divideByZeroChecks "--enable-divide-by-zero-check"
    ++ Item.switch (o.development && o.deepProfiling) "--enable-deep-profiler"
    ++ Item.switch o.monoRuntime "--mono-runtime"
    ++ [valued "--dotnetprofile=" profile]
    ++ Item.switch o.optimizeSize "--generics-option=EnableFullSharing"
    ++ [valued "--cachedirectory=" (Path.absoluteNormal here p.paths.cache)]
    ++ ((p.sourceNames fs here).map fun name => valued "--additional-cpp="
        (Path.absoluteNormal here (Path.join (Staging.additional here p.paths.cache) name)))
    ++ Item.switch o.debugs "--enable-debugger"

def firstNames : List Text :=
  ["--convert-to-cpp", "--emit-null-checks", "--enable-stacktrace", "--enable-array-bounds-check",
    "--enable-divide-by-zero-check", "--enable-deep-profiler", "--mono-runtime",
    "--dotnetprofile=", "--generics-option=EnableFullSharing", "--cachedirectory=",
    "--additional-cpp=", "--enable-debugger"].map utf8

/-- The options of a toolchain that is a sysroot. -/
def toolchainItems : List Item :=
  match p.toolchain with
  | some { kind := .sysroot root tools, .. } =>
    [valued "--sysroot-path=" root]
      ++ (if tools = [] then [] else [valued "--tool-chain-path=" tools])
  | _ => []

def toolchainNames : List Text := ["--sysroot-path=", "--tool-chain-path="].map utf8

/-- The types that are kept for the caller and for whoever provides more of them. -/
def keptTypes (fs : FileSystem) : List Text :=
  Dictionary.sorted (p.options.extraTypes ++
    match p.collaborators.extraTypes with
    | some query => (query fs).value
    | none => [])

/-- The file that lists them, from the root. -/
def extraTypesPath (fs : FileSystem) : Path :=
  let file := Path.join p.paths.temp Staging.extraTypesFile
  (Path.absolute? (pathOf fs.here) file).getD file

/-- The options that stand behind those of the toolchain. -/
def lastItems (fs : FileSystem) : List Item :=
  let here := pathOf fs.here
  Item.switch p.options.crashReporting "--emit-source-mapping"
    ++ [valued "--directory=" (Path.absoluteNormal here (p.managed here))]
    ++ [valued "--generatedcppdir=" (Staging.generated here p.paths.cache)]
    ++ (if p.keptTypes fs = [] then []
        else [valued "--extra-types-file=" (p.extraTypesPath fs)])
    ++ Item.switch true "--convert-in-graph"

def lastNames : List Text :=
  ["--emit-source-mapping", "--directory=", "--generatedcppdir=", "--extra-types-file=",
    "--convert-in-graph"].map utf8

/-- All that the generator is told, in order. -/
def generateItems (fs : FileSystem) (profile : Text) : List Item :=
  p.firstItems fs profile ++ p.options.sharedItems ++ p.toolchainItems ++ p.lastItems fs

/-- No path that the generator is told of has a zero byte, there are no further arguments, and a
toolchain is a sysroot. -/
structure TakesPaths (s : Session) : Prop where
  generator : 0 ∉ p.generator
  temp : 0 ∉ p.paths.temp
  cache : 0 ∉ p.paths.cache
  staging : 0 ∉ p.paths.staging
  baselib : 0 ∉ p.options.baselibDirectory
  toolchain : ∀ t ∈ p.toolchain, ∃ root tools, t.kind = .sysroot root tools ∧ 0 ∉ root ∧ 0 ∉ tools
  blank : ∀ b ∈ p.options.additionalArguments ++ p.options.environmentArguments,
    Text.isBlank b = true
  here : ∀ name ∈ s.files.here, IsName name
  /-- The names of files have no zero byte either. -/
  names : ∀ e ∈ s.files.entries, ∀ name ∈ e.1, 0 ∉ name
  /-- Whoever provides types does not change the current directory. -/
  extraTypes : ∀ query ∈ p.collaborators.extraTypes, ∀ fs,
    ((query fs).change fs).here = fs.here

/-- Blank texts bring no further arguments. -/
theorem furtherArguments_of_blank {o : BuildOptions}
    (h : ∀ b ∈ o.additionalArguments ++ o.environmentArguments, Text.isBlank b = true) :
    o.furtherArguments = [] := by
  have htext : ∀ b ∈ o.furtherText, Text.isBlank b = true := by
    obtain ⟨hadditional, henvironment⟩ := List.forall_mem_append.mp h
    have hspace : ∀ b ∈ utf8 " ", Text.isBlank b = true := by decide +kernel
    rw [furtherText, List.forall_mem_append]
    constructor
    · split
      · simp
      · rw [List.forall_mem_append]
        exact ⟨hadditional, hspace⟩
    · split
      · simp
      · rw [List.forall_mem_append]
        exact ⟨henvironment, hspace⟩
  have htrim : Text.trim o.furtherText = [] := by
    unfold Text.trim Text.dropBlanks
    rw [List.dropWhile_eq_nil_iff.mpr htext]
    rfl
  unfold furtherArguments
  dsimp only
  rw [if_pos htrim]

theorem map_written_toolchainItems {s : Session} (h : p.TakesPaths s) :
    p.toolchainItems.map written = p.toolchainArguments := by
  unfold toolchainItems toolchainArguments
  cases htoolchain : p.toolchain with
  | none => rfl
  | some t =>
    obtain ⟨root, tools, hkind, -, -⟩ := h.toolchain t htoolchain
    obtain ⟨name, hostPlatform, hostArch, targetPlatform, targetArch, kind⟩ := t
    subst hkind
    simp only [Toolchain.arguments]
    split
    · rfl
    · rfl

theorem map_written_firstItems (fs : FileSystem) (profile : Text) :
    (p.firstItems fs profile).map written =
      conversionSwitches p.options ++ [quoted "--dotnetprofile=" profile]
        ++ switch p.options.optimizeSize "--generics-option=EnableFullSharing"
        ++ [quoted "--cachedirectory=" (Path.absoluteNormal (pathOf fs.here) p.paths.cache)]
        ++ p.sourceArguments fs (pathOf fs.here) ++ p.options.debuggerArguments := by
  have hsources : p.sourceArguments fs (pathOf fs.here) =
      (p.sourceNames fs (pathOf fs.here)).map fun name => quoted "--additional-cpp="
        (Path.absoluteNormal (pathOf fs.here)
          (Path.join (Staging.additional (pathOf fs.here) p.paths.cache) name)) := rfl
  simp only [firstItems, List.map_append, map_written_switch, List.map_map, hsources,
    conversionSwitches, debuggerArguments]
  rfl

/-- The additional sources are named as they stand in the file system. -/
theorem zero_not_mem_sourceNames {fs : FileSystem} (h : ∀ e ∈ fs.entries, ∀ name ∈ e.1, 0 ∉ name)
    {here name : Path} (hname : name ∈ p.sourceNames fs here) : 0 ∉ name := by
  have hlisted := Dictionary.mem_sorted.mp hname
  split at hlisted
  · next names hlist =>
    obtain ⟨l, mode, -, rfl⟩ := FileAction.of_list hlist
    obtain ⟨⟨l', entry⟩, hentry, hlast⟩ := List.mem_filterMap.mp (List.mem_filter.mp hlisted).1
    split at hlast
    · exact h _ hentry name (List.mem_of_getLast? hlast)
    · cases hlast
  · cases hlisted

theorem within_firstItems {s : Session} (h : p.TakesPaths s) {profile : Text}
    (hprofile : 0 ∉ profile) : Within firstNames (p.firstItems s.files profile) := by
  have hcache := ((Path.leads s.files.here h.cache).absoluteNormal h.here).zero
  have hsources : Within firstNames ((p.sourceNames s.files (pathOf s.files.here)).map
      fun name => valued "--additional-cpp=" (Path.absoluteNormal (pathOf s.files.here)
        (Path.join (Staging.additional (pathOf s.files.here) p.paths.cache) name))) := by
    intro i hi
    obtain ⟨name, hname, rfl⟩ := List.mem_map.mp hi
    have hdir := (Staging.leads_additional (Path.leads s.files.here h.cache) h.here).zero
    have hjoined := Path.zero_not_mem_join hdir (p.zero_not_mem_sourceNames h.names hname)
    have hsource := ((Path.leads s.files.here hjoined).absoluteNormal h.here).zero
    exact within_valued (by decide) hsource _ (List.mem_singleton_self _)
  unfold firstItems
  repeat' apply Within.append
  case h.h' => exact hsources
  case h.h.h' => exact within_valued (by decide) hcache
  case h.h.h.h.h' => exact within_valued (by decide) hprofile
  all_goals exact within_switch (by decide)

theorem within_toolchainItems {s : Session} (h : p.TakesPaths s) :
    Within toolchainNames p.toolchainItems := by
  unfold toolchainItems
  split
  · next htoolchain =>
    obtain ⟨root, tools, hkind, hroot, htools⟩ := h.toolchain _ htoolchain
    obtain ⟨rfl, rfl⟩ := Toolchain.Kind.sysroot.inj hkind
    apply Within.append
    · exact within_valued (by decide) hroot
    · split
      · exact within_nil _
      · exact within_valued (by decide) htools
  · exact within_nil _

theorem within_lastItems {s : Session} (h : p.TakesPaths s) :
    Within lastNames (p.lastItems s.files) := by
  have hmanaged := ((Staging.leads_managed (Path.leads s.files.here h.staging)
    h.here).absoluteNormal h.here).zero
  have hgenerated := (Staging.leads_generated (Path.leads s.files.here h.cache) h.here).zero
  have hfile : 0 ∉ Path.join p.paths.temp Staging.extraTypesFile :=
    Path.zero_not_mem_join h.temp (by decide)
  have htypes := ((Path.leads s.files.here hfile).absolute h.here).zero
  unfold lastItems
  repeat' apply Within.append
  · exact within_switch (by decide)
  · exact within_valued (by decide) hmanaged
  · exact within_valued (by decide) hgenerated
  · split
    · exact within_nil _
    · exact within_valued (by decide) htypes
  · exact within_switch (by decide)

/-- The names of all options. -/
def optionNames : List Text := firstNames ++ sharedNames ++ toolchainNames ++ lastNames

theorem within_generateItems {s : Session} (h : p.TakesPaths s) {profile : Text}
    (hprofile : 0 ∉ profile) : Within optionNames (p.generateItems s.files profile) :=
  (((p.within_firstItems h hprofile).concat (within_sharedItems p.options h.baselib)).concat
    (p.within_toolchainItems h)).concat (p.within_lastItems h)

theorem isLiteral_generateItems {s : Session} (h : p.TakesPaths s) {profile : Text}
    (hprofile : 0 ∉ profile) : ∀ i ∈ p.generateItems s.files profile, i.IsLiteral :=
  (p.within_generateItems h hprofile).isLiteral (by decide)

theorem nodup_toolchainItems : (p.toolchainItems.map Item.name).Nodup := by
  unfold toolchainItems
  split
  · split
    · simp
    · simp only [List.map_append, List.map_cons, List.map_nil, valued]
      decide
  · exact List.nodup_nil

/-- Nothing is merged away: no name stands in two of the lists. -/
theorem appendUnique_items {s : Session} (h : p.TakesPaths s) {profile : Text}
    (hprofile : 0 ∉ profile) :
    appendUnique (appendUnique ((p.firstItems s.files profile).map written)
        (p.options.sharedItems.map written)) (p.toolchainItems.map written) =
      (p.firstItems s.files profile ++ p.options.sharedItems ++ p.toolchainItems).map written := by
  have hfirst := p.within_firstItems h hprofile
  have hshared := within_sharedItems p.options h.baselib
  have htoolchain := p.within_toolchainItems h
  rw [hfirst.appendUnique hshared (by decide) (nodup_sharedItems p.options)
      (by decide),
    (hfirst.concat hshared).appendUnique htoolchain (by decide) p.nodup_toolchainItems
      (by decide)]

/-- The arguments of the generator are the options, but for those that only running it adds. -/
theorem generateArguments_eq_items {s : Session} (h : p.TakesPaths s) {profile : Text}
    (hprofile : p.options.profileName = .ok profile) (hzero : 0 ∉ profile) :
    let here := pathOf s.files.here
    p.generateArguments s.files (p.managed here) = .ok
      ((p.firstItems s.files profile ++ p.options.sharedItems ++ p.toolchainItems).map written
        ++ switch p.options.crashReporting "--emit-source-mapping"
        ++ [quoted "--directory=" (Path.absoluteNormal here (p.managed here)),
          quoted "--generatedcppdir=" (Staging.generated here p.paths.cache)]) := by
  intro here
  rw [p.generateArguments_eq hprofile, ← p.appendUnique_items h hzero, p.map_written_firstItems,
    map_written_sharedItems, p.map_written_toolchainItems h, furtherArguments_of_blank h.blank,
    List.append_nil]

theorem zero_not_mem_profileName {o : BuildOptions} {profile : Text}
    (h : o.profileName = .ok profile) : 0 ∉ profile := by
  have hsuffix : ∀ target : Target, 0 ∉ utf8 "unityaot-" ++ target.profileSuffix := by
    intro target
    cases target <;> decide
  unfold profileName at h
  split at h
  · obtain rfl := Except.ok.inj h
    decide
  · obtain rfl := Except.ok.inj h
    decide
  · obtain rfl := Except.ok.inj h
    exact hsuffix _
  · obtain rfl := Except.ok.inj h
    exact hsuffix _
  · cases h
  · cases h

end Plan

end NativeBuild
