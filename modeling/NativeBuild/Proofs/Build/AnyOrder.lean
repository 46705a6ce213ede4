import NativeBuild.Proofs.Build.Commands
import NativeBuild.Proofs.Build.Reordered

/-!
# Generating from sources and types in any order

The generator is told of the additional sources by increasing name, and of the extra types in a file
that lists each of them once. So neither the order in which the directory of additional sources is
enumerated, nor the order in which the types are named, how often and by whom, shows in what the
generator is launched with or in the stamp that the cache keeps of it.
-/
namespace NativeBuild

open FileSystem Build

namespace Build

variable {α β : Type}

/-- Nothing comes of a collaborator that only answers. -/
theorem ask_pure (a : α) : ask (Query.pure a) = pure a := by
  funext s
  change (Except.ok a, { s with session := { s.session with out := s.session.out ++ [] } }) =
    (Except.ok a, s)
  rw [List.append_nil]

/-- A collaborator whose answer is made into another one. -/
theorem ask_map (f : α → β) (query : Query α) :
    ask (fun fs => { query fs with value := f (query fs).value }) = f <$> ask query := by
  unfold ask
  simp only [map_bind, apply_ite, map_pure]

end Build

namespace Plan

variable (p : Plan)

/-- The same plan, with other extra types and someone else who provides more of them. -/
def withTypes (types : List Text) (provider : Option (Query (List Text))) : Plan :=
  { p with
    options := { p.options with extraTypes := types }
    collaborators := { p.collaborators with extraTypes := provider } }

/-- Who provides extra types; without a provider there are no more of them. -/
def provider : Query (List Text) := p.collaborators.extraTypes.getD (.pure [])

/-- The extra types as they are named, by the caller and then by the provider. -/
def namedTypes (fs : FileSystem) : List Text := p.options.extraTypes ++ (p.provider fs).value

theorem keptTypes_eq (fs : FileSystem) :
    p.keptTypes fs = Dictionary.sorted (p.namedTypes fs) := by
  unfold keptTypes namedTypes provider
  cases p.collaborators.extraTypes <;> rfl

/-- Two plans name the same types, each with its own files, and their providers do the same
besides. -/
structure SameTypes (p p' : Plan) (fs fs' : FileSystem) : Prop where
  mem_iff : ∀ type, type ∈ p.namedTypes fs ↔ type ∈ p'.namedTypes fs'
  cancels : (p'.provider fs').cancels = (p.provider fs).cancels
  printed : (p'.provider fs').printed = (p.provider fs).printed
  files : Reordered ((p.provider fs).change fs) ((p'.provider fs').change fs')

/-- What is asked of the provider: the types that are kept at last. -/
def keeping : Query (List Text) := fun fs => { p.provider fs with value := p.keptTypes fs }

theorem SameTypes.alike {p p' : Plan} {fs fs' : FileSystem} (h : p.SameTypes p' fs fs') :
    Reply.Alike fs fs' (p.keeping fs) (p'.keeping fs') where
  value := by
    have hkept : p'.keptTypes fs' = p.keptTypes fs := by
      rw [keptTypes_eq, keptTypes_eq, Dictionary.sorted_congr h.mem_iff]
    exact hkept
  cancels := h.cancels
  printed := h.printed
  files := h.files

/-- Writes the types that the generator has to keep, if there are any. -/
def writeTypes (types : List Text) : BuildM Path := do
  if types = [] then return []
  else
    Build.perform (Staging.ensureDirectory p.paths.temp)
    let file := Path.join p.paths.temp Staging.extraTypesFile
    let file := (Path.absolute? (← get).session.here file).getD file
    match ← Build.liftSession (Session.act (FileAction.write file (Build.linesOf types))) with
    | .error _ => Build.fail (.files (utf8 "cannot write extra types file") file)
    | .ok _ =>
      Build.log .debug (utf8 "invoker")
        (utf8 "Wrote " ++ Text.ofNat types.length ++ utf8 " extra types to " ++ file)
      return file

theorem writeExtraTypes_eq : p.writeExtraTypes = Build.ask p.keeping >>= p.writeTypes := by
  have hasks : Build.ask p.keeping =
      (fun provided => Dictionary.sorted (p.options.extraTypes ++ provided.getD [])) <$>
        askIfThere p.collaborators.extraTypes := by
    have hkeeping : p.keeping = fun fs => { p.provider fs with
        value := Dictionary.sorted (p.options.extraTypes ++ (p.provider fs).value) } := by
      funext fs
      rw [keeping, keptTypes_eq, namedTypes]
    rw [hkeeping, ask_map fun types => Dictionary.sorted (p.options.extraTypes ++ types)]
    unfold provider askIfThere
    cases p.collaborators.extraTypes with
    | none =>
      rw [Option.getD_none, ask_pure, map_pure, map_pure]
      rfl
    | some query =>
      rw [Option.getD_some]
      simp only [Functor.map_map, Option.getD_some]
  rw [hasks, map_eq_pure_bind, bind_assoc]
  simp only [pure_bind]
  rfl

theorem alike_writeTypes (types : List Text) : Alike (p.writeTypes types) (p.writeTypes types) := by
  unfold writeTypes
  split
  · exact .pure _
  refine (Alike.perform fun _ _ h => Staging.sameUpTo_ensureDirectory h _).bind fun _ => ?_
  refine .get_bind fun s s' h => ?_
  dsimp only
  rw [h.session.here_eq]
  generalize (Path.absolute? _ _).getD _ = file
  refine Alike.bind (Alike.liftSession fun _ _ ht =>
    ht.act (FileAction.alike_write ht.files file _ false)) (fun result => ?_) s s' h
  cases result with
  | error e => exact .fail _
  | ok at_ => exact (Alike.log _ _ _).bind fun _ => .pure _

section Sources

variable {p} {fs fs' : FileSystem}

/-- The additional sources are named alike, whatever the order of their directory. -/
theorem sourceArguments_of_reordered (h : Reordered fs fs') (here : Path) :
    p.sourceArguments fs' here = p.sourceArguments fs here := by
  unfold sourceArguments
  dsimp only
  generalize Staging.additional here p.paths.cache = dir
  cases hlist : fs.list dir with
  | error e => rw [h.list_eq_error dir hlist]
  | ok names =>
    obtain ⟨names', hlist', hperm⟩ := h.exists_list dir hlist
    rw [hlist']
    refine congrArg (List.map _) (Dictionary.sorted_congr fun name => ?_)
    simp only [List.mem_filter, h.isFile_eq, hperm.mem_iff]

theorem generateArguments_of_reordered (h : Reordered fs fs') (managed : Path) :
    p.generateArguments fs' managed = p.generateArguments fs managed := by
  unfold generateArguments
  rw [h.here]
  simp only [sourceArguments_of_reordered h]

end Sources

/-- What a build does up to the launch of the generator. It is known then where the build is, what is
launched, and with what arguments the cache is stamped afterwards. -/
def readyGenerator : BuildM (Path × ProcessSpec × List Text) := do
  let s ← get
  let arguments ← Build.succeed
    (p.generateArguments s.session.files (p.managed s.session.here))
  checkCancelled
  let types ← p.writeExtraTypes
  let arguments := if types = [] then arguments
    else arguments ++ [quoted "--extra-types-file=" types]
  let here := (← get).session.here
  let spec : ProcessSpec :=
    { executable := p.generator
      arguments := arguments ++ [utf8 "--convert-in-graph"]
      directory := Path.absoluteNormal here p.paths.cache }
  p.prepareProcess here spec
  return (here, spec, arguments)

/-- What is done from the launch on. -/
def finishGenerator (ready : Path × ProcessSpec × List Text) : BuildM Unit := do
  p.followProcess ready.1 ready.2.1
  let _ ← Build.perform (Staging.stamp p.paths.cache (Text.join (utf8 " ") ready.2.2))
  return ()

theorem generate_eq_ready : p.generate = p.readyGenerator >>= p.finishGenerator := by
  unfold generate readyGenerator finishGenerator runGenerator
  simp only [runProcess_eq, bind_assoc, pure_bind]

variable {s s' t : State} {ready : Path × ProcessSpec × List Text}

/-- Two builds that keep the same types get ready for the same launch. -/
theorem alikeFrom_readyGenerator (h : s.Reordered s') {types : List Text}
    {provider : Option (Query (List Text))}
    (hsame : p.SameTypes (p.withTypes types provider) s.session.files s'.session.files) :
    AlikeFrom p.readyGenerator (p.withTypes types provider).readyGenerator s s' := by
  have harguments : (p.withTypes types provider).generateArguments s'.session.files
      ((p.withTypes types provider).managed s'.session.here) =
      p.generateArguments s.session.files (p.managed s.session.here) := by
    rw [h.session.here_eq]
    exact generateArguments_of_reordered h.session.files _
  refine .get_bind ?_
  rw [harguments]
  refine .succeed_bind h _ fun arguments => ?_
  refine (alike_checkCancelled s s' h).bind_exec fun _ t t' hchecked hchecked' _ => ?_
  obtain ⟨-, rfl⟩ := of_exec_checkCancelled hchecked
  obtain ⟨-, rfl⟩ := of_exec_checkCancelled hchecked'
  have hwrite : AlikeFrom p.writeExtraTypes (p.withTypes types provider).writeExtraTypes t t' := by
    rw [writeExtraTypes_eq, writeExtraTypes_eq]
    exact (AlikeFrom.ask h hsame.alike).bind fun kept => p.alike_writeTypes kept
  refine hwrite.bind fun file u u' hu => .get_bind ?_
  dsimp only
  rw [hu.session.here_eq]
  exact (p.alike_prepareProcess _ _ u u' hu).bind fun _ => Alike.pure _

theorem adds_readyGenerator : Adds Unlaunched p.readyGenerator := by
  refine Adds.get.bind fun s => (Adds.succeed _).bind fun arguments => ?_
  refine adds_checkCancelled.bind fun _ => ?_
  refine (adds_writeExtraTypes (fun _ => trivial) p).bind fun types => Adds.get.bind fun s => ?_
  refine Adds.bind ?_ fun _ => .pure _
  refine (Adds.perform _).bind fun _ => (Adds.perform _).bind fun _ => ?_
  exact adds_checkCancelled.bind fun _ => .log _ _ _

theorem launches_readyGenerator (s : State) :
    launches (exec p.readyGenerator s).2.events = launches s.events := by
  obtain ⟨new, hnew⟩ := p.adds_readyGenerator s
  exact launches_of_unlaunched hnew

/-- The generator is launched when all is ready, and nothing else is. -/
theorem launches_finishGenerator (t : State) :
    launches (exec (p.finishGenerator ready) t).2.events =
      launches t.events ++ [(ready.2.1, t.session.files)] := by
  have hfollow := p.launches_followProcess ready.1 ready.2.1 t
  have hstamp : Adds Unlaunched (Build.perform
      (Staging.stamp p.paths.cache (Text.join (utf8 " ") ready.2.2)) >>= fun _ => pure ()) :=
    (Adds.perform _).bind fun _ => .pure ()
  unfold finishGenerator
  rw [exec_bind]
  cases hexec : exec (p.followProcess ready.1 ready.2.1) t with
  | mk result followed =>
    rw [hexec] at hfollow
    cases result with
    | error e => exact hfollow
    | ok _ =>
      obtain ⟨new, hnew⟩ := hstamp followed
      exact (launches_of_unlaunched hnew).trans hfollow

theorem launches_happened_generate :
    launches (exec p.generate s).2.events =
      launches s.events ++ launches (happened p.generate s) := by
  rw [(adds_generate p s).happened.events, launches_append]

theorem exec_generate_of_ready (h : exec p.readyGenerator s = (.ok ready, t)) :
    exec p.generate s = exec (p.finishGenerator ready) t := by
  rw [generate_eq_ready, exec_bind_ok h]

/-- A build that gets ready launches the generator on the files that it has left. -/
theorem launches_of_ready (h : exec p.readyGenerator s = (.ok ready, t)) :
    launches (happened p.generate s) = [(ready.2.1, t.session.files)] ∧ t.launches = s.launches := by
  have hunlaunched := p.launches_readyGenerator s
  rw [h] at hunlaunched
  have hall := p.launches_happened_generate (s := s)
  rw [p.exec_generate_of_ready h, launches_finishGenerator, hunlaunched,
    List.append_cancel_left_eq] at hall
  exact ⟨hall.symm, by rw [State.launches_eq, State.launches_eq, hunlaunched]⟩

/-- A build that does not get ready launches nothing. -/
theorem launches_of_not_ready {e : Stop} (h : exec p.readyGenerator s = (.error e, t)) :
    launches (happened p.generate s) = [] ∧ exec p.generate s = (.error e, t) := by
  have hgenerate : exec p.generate s = (.error e, t) := by
    rw [generate_eq_ready, exec_bind_error h]
  have hunlaunched := p.launches_readyGenerator s
  rw [h] at hunlaunched
  have hall := p.launches_happened_generate (s := s)
  rw [hgenerate, hunlaunched, List.self_eq_append_right] at hall
  exact ⟨hall, hgenerate⟩

/-- If generating succeeds, it ends with stamping the cache with a command line. -/
def StampsWith (commandLine : Text) (s : State) : Prop :=
  (exec p.generate s).1 = .ok () → ∃ before changed,
    ((Staging.stamp p.paths.cache commandLine).run before).run =
      (.ok changed, (exec p.generate s).2.session)

theorem stampsWith_of_ready (h : exec p.readyGenerator s = (.ok ready, t)) :
    p.StampsWith (Text.join (utf8 " ") ready.2.2) s := by
  intro hok
  cases hexec : exec p.generate s with
  | mk result final =>
    rw [hexec] at hok
    obtain rfl : result = .ok () := hok
    rw [p.exec_generate_of_ready h] at hexec
    obtain ⟨_, followed, -, hstamp⟩ := of_exec_bind_ok hexec
    obtain ⟨changed, stamped, hperform, hend⟩ := of_exec_bind_ok hstamp
    obtain rfl : stamped = final := congrArg Prod.snd hend
    refine ⟨followed.session, changed, ?_⟩
    rw [exec_perform] at hperform
    split at hperform
    · next session hrun =>
      cases hperform
      exact hrun
    · cases congrArg Prod.fst hperform

/-- Two builds that are ready end alike if the generator does the same in both. -/
theorem alikeFrom_finishGenerator (hsink : p.SinksAlike)
    (ready : Path × ProcessSpec × List Text) {t' : State} (ht : t.Reordered t')
    (hrun : Run.Alike (p.launcher t.launches ready.2.1 t.session.files)
      (p.launcher t.launches ready.2.1 t'.session.files)) :
    AlikeFrom (p.finishGenerator ready) (p.finishGenerator ready) t t' := by
  refine (p.alikeFrom_followProcess ready.1 ready.2.1 hsink ht hrun).bind fun _ => ?_
  exact (Alike.perform fun _ _ h => Staging.sameUpTo_stamp h _ _).bind fun _ => .pure ()

/-- Files are enumerated in any order, and the extra types are named in any order, any number of
times, by the caller or by the provider. Then generating launches the same process with the same
arguments, and the process finds the same files, the one with the extra types among them. Where
generating succeeds, the cache is stamped with the same command line. If the process does the same
in both cases, and so does the caller's sink, generating has the same result, and all files are the
same afterwards, the stamp among them. -/
theorem generate_in_any_order (h : s.Reordered s') {types : List Text}
    {provider : Option (Query (List Text))}
    (hsame : p.SameTypes (p.withTypes types provider) s.session.files s'.session.files) :
    let p' := p.withTypes types provider
    let new := launches (happened p.generate s)
    let new' := launches (happened p'.generate s')
    let ended := exec p.generate s
    let ended' := exec p'.generate s'
    List.Forall₂ SameLaunch new new' ∧
      (∃ commandLine, p.StampsWith commandLine s ∧ p'.StampsWith commandLine s') ∧
      ((∀ launch ∈ new, ∀ launch' ∈ new', Run.Alike (p.launcher s.launches launch.1 launch.2)
          (p.launcher s.launches launch'.1 launch'.2)) → p.SinksAlike →
        ended'.1 = ended.1 ∧
          ∀ file, ended'.2.session.files.read file = ended.2.session.files.read file) := by
  intro p'
  dsimp only
  have hready : AlikeFrom p.readyGenerator p'.readyGenerator s s' :=
    p.alikeFrom_readyGenerator h hsame
  obtain ⟨hresult, hstates⟩ := hready
  cases hexec : exec p.readyGenerator s with
  | mk result t =>
  cases hexec' : exec p'.readyGenerator s' with
  | mk result' t' =>
    rw [hexec, hexec'] at hresult hstates
    obtain rfl : result' = result := hresult
    cases result' with
    | error e =>
      obtain ⟨hnone, hended⟩ := p.launches_of_not_ready hexec
      obtain ⟨hnone', hended'⟩ := p'.launches_of_not_ready hexec'
      refine ⟨?_, ⟨[], fun hok => ?_, fun hok => ?_⟩, fun _ _ => ?_⟩
      · rw [hnone, hnone']
        exact .nil
      · rw [hended] at hok
        cases hok
      · rw [hended'] at hok
        cases hok
      · rw [hended, hended']
        exact ⟨rfl, hstates.session.files.read_eq⟩
    | ok ready =>
      obtain ⟨hone, hcount⟩ := p.launches_of_ready hexec
      obtain ⟨hone', -⟩ := p'.launches_of_ready hexec'
      refine ⟨?_, ⟨_, p.stampsWith_of_ready hexec, p'.stampsWith_of_ready hexec'⟩, fun hrun hsink => ?_⟩
      · rw [hone, hone']
        exact .cons ⟨rfl, hstates.session.files⟩ .nil
      · rw [hone, hone'] at hrun
        have hlaunched := hrun _ (List.mem_singleton_self _) _ (List.mem_singleton_self _)
        rw [← hcount] at hlaunched
        obtain ⟨hended, hfinal⟩ := p.alikeFrom_finishGenerator hsink ready hstates hlaunched
        rw [p.exec_generate_of_ready hexec, p'.exec_generate_of_ready hexec']
        exact ⟨hended, hfinal.session.files.read_eq⟩

/-- Two additional sources in a cache, the second one enumerated first. -/
def enumerated : State where
  session := { files := { entries := [([utf8 "c"], .directory 0o755),
    ([utf8 "c", utf8 "additionalCppFiles"], .directory 0o755),
    ([utf8 "c", utf8 "additionalCppFiles", utf8 "b.cpp"], .file 0o644 []),
    ([utf8 "c", utf8 "additionalCppFiles", utf8 "a.cpp"], .file 0o644 [])] } }

/-- The same files, enumerated by increasing name. -/
def enumeratedByName : State where
  session := { files := { entries := [([utf8 "c"], .directory 0o755),
    ([utf8 "c", utf8 "additionalCppFiles"], .directory 0o755),
    ([utf8 "c", utf8 "additionalCppFiles", utf8 "a.cpp"], .file 0o644 []),
    ([utf8 "c", utf8 "additionalCppFiles", utf8 "b.cpp"], .file 0o644 [])] } }

/-- A plan with two extra types, and a generator that writes a file. -/
def namingPlan : Plan where
  options := { profile := .net20, extraTypes := [utf8 "T", utf8 "S"] }
  paths := { temp := utf8 "/t", cache := utf8 "/c", staging := utf8 "/s" }
  generator := utf8 "/g"
  launcher := fun _ _ _ =>
    { steps := [.line false (utf8 "ok"), .change fun fs =>
        ((FileAction.write (utf8 "/c/out") (utf8 "x")).run fs).run.2] }

/-- Someone else provides one of its types, and the other one a second time. -/
def splitPlan : Plan :=
  namingPlan.withTypes [utf8 "S"] (some (.pure [utf8 "T", utf8 "S", utf8 "T"]))

/-- What is seen of a launch: the arguments, and the content of the file with the extra types. -/
def seen (launch : ProcessSpec × FileSystem) : List Text × Option Text :=
  (launch.1.arguments, launch.2.content? (utf8 "/t/extra-types.txt"))

theorem generate_in_any_order_of_splitPlan :
    enumerated.Reordered enumeratedByName ∧
      namingPlan.SameTypes splitPlan enumerated.session.files enumeratedByName.session.files ∧
      (launches (happened splitPlan.generate enumeratedByName)).map seen =
        [(["--convert-to-cpp", "--emit-null-checks", "--enable-array-bounds-check",
            "--dotnetprofile=\"net20\"", "--cachedirectory=\"/c\"",
            "--additional-cpp=\"/c/additionalCppFiles/a.cpp\"",
            "--additional-cpp=\"/c/additionalCppFiles/b.cpp\"", "--avoid-dynamic-library-copy",
            "--dont-deploy-baselib", "--profiler-report", "--directory=\"/s/Managed\"",
            "--generatedcppdir=\"/c/il2cppOutput\"", "--extra-types-file=\"/t/extra-types.txt\"",
            "--convert-in-graph"].map utf8, some (utf8 "S\nT\n"))] ∧
      (exec splitPlan.generate enumeratedByName).1.isOk = true ∧
      (exec splitPlan.generate enumeratedByName).2.session.files.content? (utf8 "/c/args.stamp") =
        (exec namingPlan.generate enumerated).2.session.files.content? (utf8 "/c/args.stamp") := by
  have hfiles : Reordered enumerated.session.files enumeratedByName.session.files :=
    ⟨rfl, .cons _ (.cons _ (.swap _ _ _)), by decide +kernel⟩
  have hstates : enumerated.Reordered enumeratedByName := ⟨⟨_, hfiles, rfl⟩, rfl, rfl, .nil⟩
  have htypes : namingPlan.SameTypes splitPlan enumerated.session.files
      enumeratedByName.session.files := by
    refine ⟨fun type => ?_, rfl, rfl, hfiles⟩
    change type ∈ [utf8 "T", utf8 "S"] ↔ type ∈ [utf8 "S", utf8 "T", utf8 "S", utf8 "T"]
    simp only [List.mem_cons, List.not_mem_nil, or_false]
    tauto
  have hrun (number : ℕ) (launch launch' : ProcessSpec × FileSystem) :
      Run.Alike (namingPlan.launcher number launch.1 launch.2)
        (namingPlan.launcher number launch'.1 launch'.2) :=
    ⟨.cons (.line _ _) (.cons (.change fun _ _ h => (FileAction.alike_write h _ _ false).files) .nil),
      rfl⟩
  obtain ⟨hlaunches, -, hsame⟩ := namingPlan.generate_in_any_order hstates htypes
  obtain ⟨hresult, hread⟩ := hsame (fun launch _ launch' _ => hrun _ launch launch') nofun
  have hcontent {fs fs' : FileSystem} (h : ∀ file, fs'.read file = fs.read file) (file : Path) :
      fs'.content? file = fs.content? file := by rw [content?, content?, h]
  have hseen {new new' : List (ProcessSpec × FileSystem)} (h : List.Forall₂ SameLaunch new new') :
      new'.map seen = new.map seen := by
    induction h with
    | nil => rfl
    | cons hlaunch _ ih =>
      rw [List.map_cons, List.map_cons, ih, seen, seen, hlaunch.1, hcontent hlaunch.2.read_eq]
  refine ⟨hstates, htypes, ?_, ?_, ?_⟩
  · rw [splitPlan, hseen hlaunches]
    decide +kernel
  · rw [splitPlan, hresult]
    decide +kernel
  · rw [splitPlan, hcontent hread]

end Plan

end NativeBuild
