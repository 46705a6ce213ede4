import NativeBuild.Proofs.Build.Arguments

/-!
# What the generator is launched with

Generating launches one process at most, and what that process is told is known before it starts:
the generator's own path, and an option for each thing that the plan asks for. Making directories
and writing the file of extra types on the way do not change what paths lead to.
-/
namespace NativeBuild

open FileSystem Shell Shell.Item Build

namespace FileAction

variable {here : Location}

/-- Looking for missing directories and making them leaves the current directory. -/
theorem preserves_here_ensureOne (here : Location) (p : Path) :
    Preserves (fun fs : FileSystem => fs.here = here) (ensureOne p) := by
  have hmake : Preserves (fun fs : FileSystem => fs.here = here) (makeDirectory p) := by
    intro fs h
    unfold makeDirectory
    apply PreservesFrom.get_bind
    unfold PreservesFrom
    rw [run_ask_bind]
    split
    · split
      · split
        · exact h
        · exact h
      · exact h
    · exact h
  intro fs h
  unfold ensureOne
  apply PreservesFrom.get_bind
  split
  · next made hrun => exact .set ((hmake fs h).of_run hrun)
  · split
    · exact h
    · exact h

theorem preserves_here_makeDirectories (here : Location) (p : Path) :
    Preserves (fun fs : FileSystem => fs.here = here) (makeDirectories p) :=
  preserves_makeDirectories_of fun q _ => preserves_here_ensureOne here q

end FileAction

namespace Plan

variable (p : Plan)

/-- What is asked for extra types is answered from the files as they are. -/
theorem of_exec_askIfThere {s asked : State} {provided : Option (List Text)}
    (hkeeps : ∀ query ∈ p.collaborators.extraTypes, ∀ fs, ((query fs).change fs).here = fs.here)
    (h : exec (askIfThere p.collaborators.extraTypes) s = (.ok provided, asked)) :
    Dictionary.sorted (p.options.extraTypes ++ provided.getD []) = p.keptTypes s.session.files ∧
      asked.session.files.here = s.session.files.here := by
  unfold keptTypes
  cases hquery : p.collaborators.extraTypes with
  | none =>
    rw [hquery] at h
    cases h
    exact ⟨rfl, rfl⟩
  | some query =>
    rw [hquery, askIfThere, map_eq_pure_bind] at h
    obtain ⟨types, after, hask, h⟩ := of_exec_bind_ok h
    obtain ⟨other, hother, hfiles⟩ := exec_ask_files query s
    cases h
    cases hother.symm.trans hask
    exact ⟨rfl, (congrArg FileSystem.here hfiles).trans (hkeeps query hquery _)⟩

/-- The file that lists the extra types, if there are any. -/
theorem of_exec_writeExtraTypes {s after : State} {file : Path}
    (hkeeps : ∀ query ∈ p.collaborators.extraTypes, ∀ fs, ((query fs).change fs).here = fs.here)
    (h : exec p.writeExtraTypes s = (.ok file, after)) :
    file = if p.keptTypes s.session.files = [] then [] else p.extraTypesPath s.session.files := by
  unfold writeExtraTypes at h
  obtain ⟨provided, asked, hask, h⟩ := of_exec_bind_ok h
  obtain ⟨htypes, hasked⟩ := p.of_exec_askIfThere hkeeps hask
  dsimp only at h
  rw [htypes] at h
  split at h
  · next hnone =>
    cases h
    rw [if_pos hnone]
  · next hsome =>
    obtain ⟨_, ensured, hensure, h⟩ := of_exec_bind_ok h
    rw [exec_perform] at hensure
    split at hensure
    · next session hrun =>
      cases hensure
      obtain ⟨files, hmade, rfl⟩ := Staging.of_run_attempt hrun
      have hhere : files.here = s.session.files.here :=
        (FileAction.preserves_here_makeDirectories _ _ _ hasked).of_run hmade
      rw [exec_bind_ok (exec_get _)] at h
      dsimp only at h
      obtain ⟨result, written, -, h⟩ := of_exec_bind_ok h
      cases result with
      | error e => cases congrArg Prod.fst h
      | ok at_ =>
        obtain ⟨_, logged, -, h⟩ := of_exec_bind_ok h
        cases h
        rw [if_neg hsome, extraTypesPath, ← hhere]
        rfl
    · cases congrArg Prod.fst hensure

/-- From a state on, a step launches no process and fails, or launches one whose executable and
arguments are known. -/
def LaunchesOne {α : Type} (executable : Path) (arguments : List Text) (m : BuildM α) (s : State) :
    Prop :=
  launches (exec m s).2.events = launches s.events ∧ (∀ a, (exec m s).1 ≠ .ok a) ∨
    ∃ spec files, launches (exec m s).2.events = launches s.events ++ [(spec, files)] ∧
      spec.executable = executable ∧ spec.arguments = arguments

section LaunchesOne

variable {α β : Type} {executable : Path} {arguments : List Text} {m : BuildM α}
  {f : α → BuildM β} {s : State}

/-- What is done first launches nothing. -/
theorem LaunchesOne.after (hm : Adds Unlaunched m)
    (hf : ∀ a between, exec m s = (.ok a, between) →
      LaunchesOne executable arguments (f a) between) :
    LaunchesOne executable arguments (m >>= f) s := by
  obtain ⟨new, hnew⟩ := hm s
  have hsame := launches_of_unlaunched hnew
  unfold LaunchesOne
  rw [exec_bind]
  cases hexec : exec m s with
  | mk result between =>
    rw [hexec] at hsame
    cases result with
    | error e => exact .inl ⟨hsame, by simp⟩
    | ok a =>
      have hrest := hf a between hexec
      unfold LaunchesOne at hrest
      rwa [hsame] at hrest

/-- Neither does what is done behind. -/
theorem LaunchesOne.bind (hm : LaunchesOne executable arguments m s)
    (hf : ∀ a, Adds Unlaunched (f a)) : LaunchesOne executable arguments (m >>= f) s := by
  unfold LaunchesOne at hm ⊢
  rw [exec_bind]
  cases hexec : exec m s with
  | mk result between =>
    rw [hexec] at hm
    cases result with
    | error e => exact hm.imp (fun hnone => ⟨hnone.1, by simp⟩) fun hone => hone
    | ok a =>
      obtain ⟨new, hnew⟩ := hf a between
      rw [launches_of_unlaunched hnew]
      obtain ⟨-, hfails⟩ | hone := hm
      · exact absurd rfl (hfails a)
      · exact .inr hone

end LaunchesOne

theorem launchesOne_runProcess (here : Path) (spec : ProcessSpec) (s : State) :
    LaunchesOne spec.executable spec.arguments (p.runProcess here spec) s := by
  obtain ⟨session, result, hprepare, -⟩ := p.exec_prepareProcess here spec s
  unfold LaunchesOne
  rw [runProcess_eq]
  cases result with
  | error e =>
    rw [exec_bind_error hprepare]
    exact .inl ⟨rfl, by simp⟩
  | ok _ =>
    rw [exec_bind_ok hprepare]
    have hlaunches := p.launches_followProcess here spec { s with session }
    exact .inr ⟨spec, session.files, hlaunches, rfl, rfl⟩

theorem extraTypesPath_ne_nil (fs : FileSystem) : p.extraTypesPath fs ≠ [] := by
  have hname : Path.IsName Staging.extraTypesFile := by decide +kernel
  have habsolute := Path.isAbsolute_absolute fs.here (Path.join_ne_nil hname p.paths.temp)
  intro hnil
  unfold extraTypesPath at hnil
  dsimp only at hnil
  rw [hnil] at habsolute
  cases habsolute

/-- Running the generator adds the file of extra types, if there are any, and a last switch. -/
theorem map_written_generateItems (fs : FileSystem) (profile : Text) :
    let here := pathOf fs.here
    let file := if p.keptTypes fs = [] then [] else p.extraTypesPath fs
    let arguments :=
      (p.firstItems fs profile ++ p.options.sharedItems ++ p.toolchainItems).map written
        ++ Plan.switch p.options.crashReporting "--emit-source-mapping"
        ++ [quoted "--directory=" (Path.absoluteNormal here (p.managed here)),
          quoted "--generatedcppdir=" (Staging.generated here p.paths.cache)]
    (p.generateItems fs profile).map written =
      (if file = [] then arguments else arguments ++ [quoted "--extra-types-file=" file])
        ++ [utf8 "--convert-in-graph"] := by
  intro here file arguments
  have hitems : (p.generateItems fs profile).map written =
      arguments ++ (if p.keptTypes fs = [] then []
        else [quoted "--extra-types-file=" (p.extraTypesPath fs)])
        ++ [utf8 "--convert-in-graph"] := by
    have hlast : Plan.switch true "--convert-in-graph" = [utf8 "--convert-in-graph"] := rfl
    simp only [generateItems, lastItems, List.map_append, map_written_switch, hlast, arguments]
    split <;> simp [here]
  rw [hitems]
  by_cases htypes : p.keptTypes fs = []
  · have hfile : file = [] := if_pos htypes
    rw [if_pos htypes, if_pos hfile, List.append_nil]
  · have hfile : file = p.extraTypesPath fs := if_neg htypes
    rw [if_neg htypes, if_neg (hfile ▸ p.extraTypesPath_ne_nil fs), hfile]

/-- Generating launches the generator with the options that the plan asks for. -/
theorem launchesOne_generate {s : State} (h : p.TakesPaths s.session) {profile : Text}
    (hprofile : p.options.profileName = .ok profile) :
    LaunchesOne p.generator ((p.generateItems s.session.files profile).map written) p.generate s := by
  have hzero := zero_not_mem_profileName hprofile
  have harguments := p.generateArguments_eq_items h hprofile hzero
  rw [generate_eq]
  apply LaunchesOne.bind
  swap
  · exact fun arguments => (Adds.perform _).bind fun _ => .pure ()
  unfold generateSources
  apply LaunchesOne.after .get
  intro _ _ hget
  cases hget
  apply LaunchesOne.after (.succeed _)
  intro arguments between hsucceed
  have hhere : s.session.here = pathOf s.session.files.here := rfl
  rw [hhere, harguments] at hsucceed
  cases hsucceed
  apply LaunchesOne.after adds_checkCancelled
  intro _ checked hcheck
  obtain ⟨-, rfl⟩ := of_exec_checkCancelled hcheck
  apply LaunchesOne.after (adds_writeExtraTypes (fun _ => trivial) p)
  intro file written hwrite
  have hfile := p.of_exec_writeExtraTypes h.extraTypes hwrite
  apply LaunchesOne.bind
  swap
  · exact fun _ => .pure _
  unfold runGenerator
  apply LaunchesOne.after .get
  intro _ _ hget
  cases hget
  rw [p.map_written_generateItems, hfile]
  exact p.launchesOne_runProcess _ _ written

/-- The generator is launched with the options that the plan asks for, or the phase fails without a
launch. The shell splits the command line into the generator and one word for each option: its name
and the value behind it as it is. It expands nothing and takes nothing for an operator. -/
theorem generate_splits_into_options {s : State} (h : p.TakesPaths s.session) {profile : Text}
    (hprofile : p.options.profileName = .ok profile) :
    let items := p.generateItems s.session.files profile
    let new := happened p.generate s
    launches new = [] ∧ (exec p.generate s).1 ≠ .ok () ∨
      ∃ spec files, launches new = [(spec, files)] ∧ spec.executable = p.generator ∧
        spec.arguments = items.map written ∧
        SplitsInto spec.commandLine (p.generator :: items.map meant) := by
  intro items new
  have hevents : (exec p.generate s).2.events = s.events ++ new :=
    (adds_generate p s).happened.events
  have hliteral := p.isLiteral_generateItems h (zero_not_mem_profileName hprofile)
  obtain ⟨hnone, hfails⟩ | ⟨spec, files, hone, hexecutable, harguments⟩ :=
    p.launchesOne_generate h hprofile
  · rw [hevents, launches_append, List.append_right_eq_self] at hnone
    exact .inl ⟨hnone, hfails ()⟩
  · rw [hevents, launches_append, List.append_cancel_left_eq] at hone
    refine .inr ⟨spec, files, hone, hexecutable, harguments, ?_⟩
    rw [← hexecutable]
    exact spec.splitsInto_commandLine (hexecutable ▸ h.generator) harguments hliteral

/-- A plan whose paths have bytes that a shell acts on, and an additional source with such a name. -/
def hostilePlan : Plan where
  options :=
    { profile := .net20, baselibDirectory := utf8 "/b;l", extraTypes := [utf8 "T"]
      additionalArguments := utf8 " \t" }
  paths := { temp := utf8 "/t\n", cache := utf8 "/`c`", staging := utf8 "/s\"s" }
  generator := utf8 "/a b/$g"
  toolchain := some
    { name := utf8 "t", hostPlatform := [], hostArch := [], targetPlatform := [], targetArch := []
      kind := .sysroot (utf8 "/$(r)") (utf8 "*") }
  launcher := fun _ _ _ => {}

def hostileSession : Session where
  files := { entries := [([utf8 "`c`"], .directory 0o755),
    ([utf8 "`c`", utf8 "additionalCppFiles"], .directory 0o755),
    ([utf8 "`c`", utf8 "additionalCppFiles", utf8 "\\x.cpp"], .file 0o644 [])] }

theorem generate_splits_into_options_of_hostilePlan :
    hostilePlan.TakesPaths hostileSession ∧
      hostilePlan.options.profileName = .ok (utf8 "net20") ∧
      ∃ spec files,
        launches (happened hostilePlan.generate { session := hostileSession }) = [(spec, files)] ∧
        SplitsInto spec.commandLine ([utf8 "/a b/$g", utf8 "--convert-to-cpp",
          utf8 "--emit-null-checks", utf8 "--enable-array-bounds-check",
          utf8 "--dotnetprofile=net20", utf8 "--cachedirectory=/`c`",
          utf8 "--additional-cpp=/`c`/additionalCppFiles/\\x.cpp",
          utf8 "--baselib-directory=/b;l", utf8 "--avoid-dynamic-library-copy",
          utf8 "--dont-deploy-baselib", utf8 "--profiler-report", utf8 "--sysroot-path=/$(r)",
          utf8 "--tool-chain-path=*", utf8 "--directory=/s\"s/Managed",
          utf8 "--generatedcppdir=/`c`/il2cppOutput", utf8 "--extra-types-file=/t\n/extra-types.txt",
          utf8 "--convert-in-graph"]) := by
  have hpaths : hostilePlan.TakesPaths hostileSession := by
    constructor
    case toolchain =>
      intro t ht
      cases ht
      exact ⟨utf8 "/$(r)", utf8 "*", rfl, by decide +kernel, by decide +kernel⟩
    case extraTypes =>
      intro query hquery
      cases hquery
    all_goals decide +kernel
  have hprofile : hostilePlan.options.profileName = .ok (utf8 "net20") := rfl
  have hlaunched : (launches (happened hostilePlan.generate
      { session := hostileSession })).isEmpty = false := by decide +kernel
  have hmeant : (hostilePlan.generateItems hostileSession.files (utf8 "net20")).map meant =
      [utf8 "--convert-to-cpp", utf8 "--emit-null-checks", utf8 "--enable-array-bounds-check",
        utf8 "--dotnetprofile=net20", utf8 "--cachedirectory=/`c`",
        utf8 "--additional-cpp=/`c`/additionalCppFiles/\\x.cpp",
        utf8 "--baselib-directory=/b;l", utf8 "--avoid-dynamic-library-copy",
        utf8 "--dont-deploy-baselib", utf8 "--profiler-report", utf8 "--sysroot-path=/$(r)",
        utf8 "--tool-chain-path=*", utf8 "--directory=/s\"s/Managed",
        utf8 "--generatedcppdir=/`c`/il2cppOutput", utf8 "--extra-types-file=/t\n/extra-types.txt",
        utf8 "--convert-in-graph"] := by decide +kernel
  obtain ⟨hnone, -⟩ | ⟨spec, files, hone, -, -, hsplits⟩ :=
    hostilePlan.generate_splits_into_options (s := { session := hostileSession }) hpaths hprofile
  · rw [hnone] at hlaunched
    cases hlaunched
  · rw [hmeant] at hsplits
    exact ⟨hpaths, hprofile, spec, files, hone, hsplits⟩

end Plan

end NativeBuild
