import NativeBuild.Build.Pipeline
import NativeBuild.Proofs.Build.Work
import NativeBuild.Proofs.Merging

/-!
# Flags that go with a definition

Three features change the code that is generated, so the generator gets a flag for each of them and
the runtime is compiled with a definition. Both depend on the options alone: the command line that
generates, the one that links and the definitions show a feature together or not at all. A flag
stands in a command line once, however the arguments of the toolchain are merged into it.
-/
namespace NativeBuild

/-- A feature that the generated code and the runtime have to agree on. -/
structure Coupling where
  flag : Text
  define : Text
  isOn : BuildOptions → Bool

namespace Coupling

open BuildOptions

def all : List Coupling :=
  [⟨validationFlag, validationDefine, validatesBarriers⟩,
    ⟨timeSliceFlag, timeSliceDefine, slicesTime⟩,
    ⟨debuggerFlag, debuggerDefine, debugs⟩]

variable {c : Coupling}

theorem getLast?_quoted (option : String) (value : Text) :
    (Plan.quoted option value).getLast? = some (byte '"') := by
  rw [Plan.quoted, Quoting.quote, ← List.append_assoc, List.getLast?_concat]

/-- A quoted argument ends with a quote, and no flag does. -/
theorem flag_ne_quoted (hc : c ∈ all) (option : String) (value : Text) :
    c.flag ≠ Plan.quoted option value := by
  intro h
  have hlast : c.flag.getLast? = some (byte '"') := h ▸ getLast?_quoted option value
  have hnone : ∀ c ∈ all, c.flag.getLast? ≠ some (byte '"') := by
    simp only [all, List.forall_mem_cons]
    decide +kernel
  exact hnone c hc hlast

theorem count_quoted_cons (hc : c ∈ all) (option : String) (value : Text) (rest : List Text) :
    (Plan.quoted option value :: rest).count c.flag = rest.count c.flag :=
  List.count_cons_of_ne (flag_ne_quoted hc option value).symm

theorem count_switch (hc : c ∈ all) {argument : String} (h : utf8 argument ∉ all.map (·.flag))
    (on : Bool) : (Plan.switch on argument).count c.flag = 0 := by
  rw [List.count_eq_zero]
  intro hmem
  cases on with
  | false => simp [Plan.switch] at hmem
  | true =>
    have hflag : c.flag = utf8 argument := List.mem_singleton.mp hmem
    exact h (List.mem_map.mpr ⟨c, hc, hflag⟩)

/-- The arguments that both command lines share hold a flag once or not at all. -/
theorem count_flag (hc : c ∈ all) (o : BuildOptions) :
    o.sharedArguments.count c.flag + o.debuggerArguments.count c.flag = (c.isOn o).toNat := by
  have hbaselib : (if o.baselibDirectory = [] then []
      else [utf8 "--baselib-directory=" ++ Quoting.quote o.baselibDirectory]).count c.flag = 0 := by
    rw [List.count_eq_zero]
    split
    · simp
    · rw [List.mem_singleton]
      exact flag_ne_quoted hc _ _
  simp only [sharedArguments, debuggerArguments, List.count_append, hbaselib]
  simp only [all, List.mem_cons, List.not_mem_nil, or_false] at hc
  obtain rfl | rfl | rfl := hc
  all_goals
    dsimp only
    generalize o.validatesBarriers = validates, o.slicesTime = slices, o.debugs = debugs
    revert validates slices debugs
    decide +kernel

/-- The definitions of the profile and the target belong to no feature. -/
theorem define_mem_iff (hc : c ∈ all) {o : BuildOptions} {defines : List Text}
    (h : o.defines = .ok defines) : c.define ∈ defines ↔ c.isOn o = true := by
  unfold BuildOptions.defines at h
  cases hprofile : profileDefines? o.profile with
  | none =>
    rw [hprofile] at h
    cases h
  | some common =>
    rw [hprofile] at h
    obtain rfl := Except.ok.inj h
    have hcommon : c.define ∉ common := by
      have hall : ∀ profile, ∀ common ∈ profileDefines? profile, ∀ c ∈ all, c.define ∉ common := by
        intro profile common hmem
        simp only [all, List.forall_mem_cons]
        cases profile <;> cases hmem <;> decide +kernel
      exact hall o.profile common hprofile c hc
    have htarget : c.define ∉ targetDefines o.target := by
      have hall : ∀ target, ∀ c ∈ all, c.define ∉ targetDefines target := by
        intro target
        simp only [all, List.forall_mem_cons]
        cases target <;> decide +kernel
      exact hall o.target c hc
    rw [List.mem_append, List.mem_append, or_assoc, or_iff_right hcommon, or_iff_right htarget]
    unfold featureDefines
    simp only [all, List.mem_cons, List.not_mem_nil, or_false] at hc
    obtain rfl | rfl | rfl := hc
    all_goals
      dsimp only
      generalize o.validatesBarriers = validates, o.slicesTime = slices, o.debugs = debugs
      revert validates slices debugs
      decide +kernel

/-- No switch of the generator is a flag. -/
theorem count_conversionSwitches (hc : c ∈ all) (o : BuildOptions) :
    (Plan.conversionSwitches o).count c.flag = 0 := by
  unfold Plan.conversionSwitches
  simp only [all, List.mem_cons, List.not_mem_nil, or_false] at hc
  generalize o.nullChecks = b₁, o.stacktrace = b₂, o.arrayBoundsChecks = b₃,
    o.divideByZeroChecks = b₄, (o.development && o.deepProfiling) = b₅, o.monoRuntime = b₆
  obtain rfl | rfl | rfl := hc
  all_goals
    revert b₁ b₂ b₃ b₄ b₅ b₆
    decide +kernel

/-- Merging the shared arguments in, and then others without flags, leaves a flag where it is or
adds it. -/
theorem count_merged (hc : c ∈ all) (o : BuildOptions) (first others : List Text)
    (hothers : c.flag ∉ others) :
    (appendUnique (appendUnique first o.sharedArguments) others).count c.flag =
      max (first.count c.flag) (o.sharedArguments.count c.flag) := by
  have hflag := count_flag hc o
  have hone : (c.isOn o).toNat ≤ 1 := Bool.toNat_le (c.isOn o)
  rw [count_appendUnique, if_neg hothers, count_appendUnique]
  split
  · next hmem =>
    have hpos := List.count_pos_iff.mpr hmem
    omega
  · next hmem =>
    rw [List.count_eq_zero.mpr hmem]
    omega

end Coupling

namespace Plan

open Build BuildOptions Coupling

/-- What the native builder answers when it is asked for its arguments with some definitions. It is
asked for the name of the library first, which may change the files. -/
def preparation (p : Plan) (builder : NativeBuilder) (defines : List Text) (fs : FileSystem) :
    Reply (List Text) :=
  let library := builder.libraryName fs
  builder.arguments (Path.join (Staging.native p.paths.cache) library.value) defines
    (library.change fs)

/-- No argument that comes from elsewhere is one of the flags. -/
structure FlagsAreFree (p : Plan) (prepared : List Text) : Prop where
  toolchain : ∀ c ∈ all, c.flag ∉ p.toolchainArguments
  prepared : ∀ c ∈ all, c.flag ∉ prepared
  further : ∀ c ∈ all, c.flag ≠ Text.trim p.options.furtherText

variable {c : Coupling} {p : Plan} {prepared : List Text}

theorem FlagsAreFree.count_further (h : p.FlagsAreFree prepared) (hc : c ∈ all) :
    p.options.furtherArguments.count c.flag = 0 := by
  rw [List.count_eq_zero]
  unfold BuildOptions.furtherArguments
  dsimp only
  split
  · simp
  · rw [List.mem_singleton]
    exact h.further c hc

/-- The profiles with definitions are those with a name. -/
theorem profileName_of_defines {o : BuildOptions} {defines : List Text}
    (h : o.defines = .ok defines) : ∃ profile, o.profileName = .ok profile := by
  unfold BuildOptions.defines at h
  unfold BuildOptions.profileName
  cases hprofile : o.profile with
  | net46 | netStandard20 =>
    rw [hprofile] at h
    cases h
  | net20Subset | net20 | net48 | netStandard => exact ⟨_, rfl⟩

theorem count_sourceArguments (hc : c ∈ all) (p : Plan) (fs : FileSystem) (here : Path) :
    (p.sourceArguments fs here).count c.flag = 0 := by
  rw [List.count_eq_zero]
  intro hmem
  obtain ⟨name, -, hname⟩ := List.mem_map.mp hmem
  exact flag_ne_quoted hc _ _ hname.symm

/-- The command line that generates, for a profile that has a name. -/
theorem generateArguments_eq {profile : Text} (h : p.options.profileName = .ok profile)
    (fs : FileSystem) (managed : Path) :
    let here := FileSystem.pathOf fs.here
    p.generateArguments fs managed = .ok
      (appendUnique (appendUnique
          (conversionSwitches p.options ++ [quoted "--dotnetprofile=" profile]
            ++ switch p.options.optimizeSize "--generics-option=EnableFullSharing"
            ++ [quoted "--cachedirectory=" (Path.absoluteNormal here p.paths.cache)]
            ++ p.sourceArguments fs here ++ p.options.debuggerArguments)
          p.options.sharedArguments) p.toolchainArguments
        ++ switch p.options.crashReporting "--emit-source-mapping"
        ++ p.options.furtherArguments
        ++ [quoted "--directory=" (Path.absoluteNormal here managed),
          quoted "--generatedcppdir=" (Staging.generated here p.paths.cache)]) := by
  unfold generateArguments
  dsimp only
  rw [h]
  rfl

/-- The command line that links starts with what the native builder answers to the definitions. -/
theorem exec_compileLinkArguments {builder : NativeBuilder} {defines : List Text} {profile : Text}
    (hbuilder : p.collaborators.nativeBuilder = some builder)
    (hdefines : p.options.defines = .ok defines) (hprofile : p.options.profileName = .ok profile)
    (source : Path) (s : State) :
    ∃ generated after, exec (p.compileLinkArguments source) s =
      (.ok (appendUnique (appendUnique
          ((p.preparation builder defines s.session.files).value ++ p.options.furtherArguments)
          p.options.sharedArguments) p.toolchainArguments
        ++ [quoted "--generatedcppdir=" generated, quoted "--dotnetprofile=" profile]
        ++ p.options.debuggerArguments), after) := by
  unfold compileLinkArguments
  rw [hbuilder]
  dsimp only
  rw [hdefines, hprofile]
  obtain ⟨named, hnamed, hfiles⟩ := exec_ask_files builder.libraryName s
  obtain ⟨asked, hasked, -⟩ := exec_ask_files
    (builder.arguments (Path.join (Staging.native p.paths.cache)
      (builder.libraryName s.session.files).value) defines) named
  rw [hfiles] at hasked
  refine ⟨Staging.generated asked.session.here source, asked, ?_⟩
  rw [exec_bind_ok (exec_succeed _ _), exec_bind_ok (exec_succeed _ _), exec_bind_ok hnamed,
    exec_bind_ok hasked]
  rfl

/-- What a list of arguments keeps of a flag: one copy if the feature is on, none otherwise. -/
def Shows (arguments : List Text) (o : BuildOptions) (c : Coupling) : Prop :=
  arguments.count c.flag = (c.isOn o).toNat

theorem Shows.mem_iff {arguments : List Text} {o : BuildOptions} (h : Shows arguments o c) :
    c.flag ∈ arguments ↔ c.isOn o = true := by
  rw [← List.count_pos_iff, h]
  cases c.isOn o <;> simp

theorem Shows.count_le_one {arguments : List Text} {o : BuildOptions} (h : Shows arguments o c) :
    arguments.count c.flag ≤ 1 := by
  rw [h]
  exact Bool.toNat_le (c.isOn o)

theorem shows_generateArguments (h : p.FlagsAreFree prepared) (hc : c ∈ all) {profile : Text}
    (hprofile : p.options.profileName = .ok profile) {fs : FileSystem} {managed : Path}
    {arguments : List Text} (hgenerate : p.generateArguments fs managed = .ok arguments) :
    Shows arguments p.options c := by
  obtain rfl := Except.ok.inj ((p.generateArguments_eq hprofile fs managed).symm.trans hgenerate)
  have hflag := count_flag hc p.options
  have hone : (c.isOn p.options).toNat ≤ 1 := Bool.toNat_le _
  have hsharing : (switch p.options.optimizeSize "--generics-option=EnableFullSharing").count
      c.flag = 0 := count_switch hc (by decide) _
  have hmapping : (switch p.options.crashReporting "--emit-source-mapping").count c.flag = 0 :=
    count_switch hc (by decide) _
  simp only [Shows, List.count_append, count_merged hc _ _ _ (h.toolchain c hc),
    count_conversionSwitches hc, hsharing, hmapping, count_sourceArguments hc,
    h.count_further hc, count_quoted_cons hc, List.count_nil]
  omega

theorem shows_linkArguments (h : p.FlagsAreFree prepared) (hc : c ∈ all)
    (generated profile : Text) :
    Shows (appendUnique (appendUnique (prepared ++ p.options.furtherArguments)
          p.options.sharedArguments) p.toolchainArguments
        ++ [quoted "--generatedcppdir=" generated, quoted "--dotnetprofile=" profile]
        ++ p.options.debuggerArguments) p.options c := by
  have hflag := count_flag hc p.options
  have hprepared := List.count_eq_zero.mpr (h.prepared c hc)
  simp only [Shows, List.count_append, count_merged hc _ _ _ (h.toolchain c hc), hprepared,
    h.count_further hc, count_quoted_cons hc, List.count_nil]
  omega

/-- The definitions that the native builder is given, the command line that generates and the one
that links show each feature together, and show it once. Whatever else the options and the toolchain
ask for stands in both command lines. -/
theorem flags_agree_with_defines (p : Plan) {builder : NativeBuilder} {defines : List Text}
    (hbuilder : p.collaborators.nativeBuilder = some builder)
    (hdefines : p.options.defines = .ok defines) (s : State)
    (hfree : p.FlagsAreFree (p.preparation builder defines s.session.files).value)
    (fs : FileSystem) (managed source : Path) :
    ∃ generate link assembly,
      p.generateArguments fs managed = .ok generate ∧
      (exec (p.compileLinkArguments source) s).1 = .ok link ∧
      p.options.assemble p.toolchainArguments = .ok assembly ∧
      (p.preparation builder defines s.session.files).value <+: link ∧
      (∀ c ∈ all,
        (c.flag ∈ generate ↔ c.flag ∈ link) ∧ (c.flag ∈ link ↔ c.define ∈ defines) ∧
          generate.count c.flag ≤ 1 ∧ link.count c.flag ≤ 1) ∧
      ∀ argument ∈ assembly.arguments, argument ∈ generate ∧ argument ∈ link := by
  obtain ⟨profile, hprofile⟩ := profileName_of_defines hdefines
  have hgenerate := p.generateArguments_eq hprofile fs managed
  obtain ⟨generated, after, hlink⟩ :=
    exec_compileLinkArguments hbuilder hdefines hprofile source s
  have hassemble : p.options.assemble p.toolchainArguments = .ok ⟨defines,
      appendUnique (appendUnique p.options.sharedArguments p.options.debuggerArguments)
        p.toolchainArguments⟩ := by
    unfold BuildOptions.assemble
    rw [hdefines]
    rfl
  refine ⟨_, _, _, hgenerate, congrArg Prod.fst hlink, hassemble, ?_, fun c hc => ?_, ?_⟩
  · rw [List.append_assoc]
    refine List.IsPrefix.trans ?_ (List.prefix_append _ _)
    refine List.IsPrefix.trans ?_ (prefix_appendUnique _ p.toolchainArguments)
    exact (List.prefix_append _ p.options.furtherArguments).trans (prefix_appendUnique _ _)
  · have hshown := shows_generateArguments hfree hc hprofile hgenerate
    have hlinked := shows_linkArguments hfree hc generated profile
    refine ⟨?_, ?_, hshown.count_le_one, hlinked.count_le_one⟩
    · rw [hshown.mem_iff, hlinked.mem_iff]
    · rw [hlinked.mem_iff, define_mem_iff hc hdefines]
  · intro argument hmem
    simp only [mem_appendUnique] at hmem
    simp only [List.mem_append, mem_appendUnique]
    obtain (hmem | hmem) | hmem := hmem
    · exact ⟨.inl (.inl (.inl (.inl (.inr hmem)))), .inl (.inl (.inl (.inr hmem)))⟩
    · exact ⟨.inl (.inl (.inl (.inl (.inl (.inr hmem))))), .inr hmem⟩
    · exact ⟨.inl (.inl (.inl (.inr hmem))), .inl (.inl (.inr hmem))⟩

/-- A plan with all features, and a toolchain that repeats an argument of the options. -/
def debuggedPlan : Plan where
  options :=
    { allowDebugging := true, development := true, writeBarrierValidation := true
      incrementalCollection := true, additionalArguments := utf8 " --verbose " }
  paths := { temp := utf8 "/t", cache := utf8 "/c", staging := utf8 "/s" }
  generator := utf8 "/g"
  toolchain := some
    { name := utf8 "t", hostPlatform := [], hostArch := [], targetPlatform := [], targetArch := []
      kind := .fixed [utf8 "--profiler-report", utf8 "--sysroot"] true }
  launcher := fun _ _ _ => {}
  collaborators := { nativeBuilder := some (NativeLibrary.builder { library := utf8 "l.so" }) }

/-- The definitions of that plan. -/
def debuggedDefines : List Text :=
  commonDefines ++ modernDefines ++
    [debuggerDefine, utf8 "IL2CPP_ENABLE_STRICT_WRITE_BARRIERS=1", validationDefine,
      utf8 "IL2CPP_ENABLE_WRITE_BARRIERS=1", timeSliceDefine]

theorem flags_agree_with_defines_of_debugged :
    debuggedPlan.options.defines = .ok debuggedDefines ∧
      debuggedPlan.FlagsAreFree
        (debuggedPlan.preparation (NativeLibrary.builder { library := utf8 "l.so" })
          debuggedDefines {}).value ∧
      ∃ generate link,
        debuggedPlan.generateArguments {} (utf8 "/s/Managed") = .ok generate ∧
        (exec (debuggedPlan.compileLinkArguments (utf8 "/c")) { session := {} }).1 = .ok link ∧
        ∀ c ∈ all, generate.count c.flag = 1 ∧ link.count c.flag = 1 := by
  have hdefines : debuggedPlan.options.defines = .ok debuggedDefines := rfl
  have hfree : debuggedPlan.FlagsAreFree
      (debuggedPlan.preparation (NativeLibrary.builder { library := utf8 "l.so" })
        debuggedDefines {}).value := by
    constructor <;> simp only [all, List.forall_mem_cons] <;> decide +kernel
  obtain ⟨generate, link, assembly, hgenerate, hlink, -, -, hflags, -⟩ :=
    debuggedPlan.flags_agree_with_defines rfl hdefines { session := {} } hfree {}
      (utf8 "/s/Managed") (utf8 "/c")
  refine ⟨hdefines, hfree, generate, link, hgenerate, hlink, fun c hc => ?_⟩
  have hshown : c.define ∈ debuggedDefines := by
    have hall : ∀ c ∈ all, c.define ∈ debuggedDefines := by
      simp only [all, List.forall_mem_cons]
      decide +kernel
    exact hall c hc
  obtain ⟨hboth, hdefine, hgenerated, hlinked⟩ := hflags c hc
  have hlinkMem := hdefine.mpr hshown
  have hgeneratePos := List.count_pos_iff.mpr (hboth.mpr hlinkMem)
  have hlinkPos := List.count_pos_iff.mpr hlinkMem
  omega

end Plan

end NativeBuild
