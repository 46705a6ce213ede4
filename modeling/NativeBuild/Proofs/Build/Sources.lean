import NativeBuild.Proofs.Build.Arguments
import NativeBuild.Proofs.Build.Staged
import NativeBuild.Proofs.Files.Collecting
import NativeBuild.Proofs.Files.Grounded
import NativeBuild.Proofs.Staging.Acting

/-!
# The additional sources that the generator is told of

Preparing makes the directory of the additional sources anew and copies each source into it, under
its own file name. The generator is told of the files that are found there. So it is told of one
file for each file name, and that file is the last source with the name: sources in front of it with
the same name are lost, and no failure tells so.
-/
namespace NativeBuild

open FileSystem BuildPaths Build
open NativeBuild.Path (IsName)

/-- Where the additional sources of a directory are. -/
def BuildPaths.additionalIn (dir : Location) : Location := dir ++ [utf8 "additionalCppFiles"]

/-- The contents of files stay, and so do directories. Directories may be made. -/
def Policy.keepingContents (start : FileSystem) : Policy where
  start
  places := []
  may _ e e' := contentOf e' = contentOf e ∧
    (e.any Entry.isDirectory = true → e'.any Entry.isDirectory = true)
  refl _ _ := ⟨rfl, id⟩
  trans _ _ _ _ h h' := ⟨h'.1.trans h.1, h'.2 ∘ h.2⟩
  logs := by simp

theorem Staging.grounded_of_ensureDirectory {s made : Session} {dir : Path} (hzero : 0 ∉ dir)
    (h : s.files.Grounded) (hrun : ((ensureDirectory dir).run s).run = (.ok (), made)) :
    made.files.Grounded := by
  obtain ⟨files, hmade, rfl⟩ := of_run_attempt hrun
  exact (FileAction.grounded_makeDirectories hzero s.files h).of_run hmade

/-- A directory that is made anew in one that can be entered is empty and is found. -/
theorem Staging.rebuilds_of_recreate_grounded {s after : Session} {q : Path} {name : Text}
    (h : s.files.Grounded) (hq : s.files.Reaches q) (hleft : Path.left s.files.here q = [])
    (hname : IsName name) (hrun : ((recreate (Path.join q name)).run s).run = (.ok (), after)) :
    s.Rebuilds after (Path.location s.files.here q ++ [name]) View.fresh ∧
      after.files.isDirectory (Path.join q name) = true := by
  have hback : ∀ l ∈ Path.left s.files.here q, s.files.directoryAt l = true ∧
      ¬ Path.location s.files.here q ++ [name] <+: l := by simp [hleft]
  have hnothing : s.files.get? (Path.location s.files.here q ++ [name]) = none →
      ∀ l, Path.location s.files.here q ++ [name] <+: l → s.files.get? l = none := by
    intro hnone l hl
    by_contra hthere
    have hne : Path.location s.files.here q ++ [name] ≠ l := fun heq => hthere (heq ▸ hnone)
    obtain ⟨mode, hget⟩ := directoryAt_iff.mp (directoryAt_of_closed h.closed hl hne hthere)
    cases hnone.symm.trans hget
  exact ⟨rebuilds_of_recreate h.plain hq.zero hname hback (fun _ => hq) hnothing hrun,
    found_of_recreate h.plain hq.zero hname hback (fun _ => hq) hnothing hrun⟩

theorem Build.perform_forM {α : Type} (f : α → Job Unit) (items : List α) :
    perform (items.forM f) = items.forM fun item => perform (f item) := by
  induction items with
  | nil => rfl
  | cons item items ih =>
    have hstep : (item :: items).forM f = f item >>= fun _ => items.forM f := rfl
    rw [hstep, perform_bind, ih]
    rfl

namespace Plan

variable (p : Plan) (here : Path)

/-- Makes the directories that preparing needs, and that of the additional sources anew. -/
def renew : Job Unit := do
  Staging.ensureDirectory p.paths.temp
  Staging.ensureDirectory (Staging.generated here p.paths.cache)
  Staging.allowWriting (Staging.generated here p.paths.cache)
  Staging.recreate (Staging.additional here p.paths.cache)

/-- Copies the additional sources into their directory. -/
def collect : Job Unit :=
  p.options.additionalSources.forM (copySource (Staging.additional here p.paths.cache))

/-- Without further sources preparing is one task. -/
theorem prepare_eq_perform (h : p.collaborators.moreSources = none) : p.prepare = (do
    let here := (← get).session.here
    perform (p.renew here >>= fun _ => p.collect here)) := by
  unfold prepare renew collect
  simp only [h, perform_bind, perform_forM, bind_assoc, bind_pure_unit]

theorem actsOnFiles_renew : Staging.ActsOnFiles (p.renew here) :=
  (Staging.actsOnFiles_ensureDirectory _).bind fun _ =>
    (Staging.actsOnFiles_ensureDirectory _).bind fun _ =>
      (Staging.actsOnFiles_allowWriting _).bind fun _ => Staging.actsOnFiles_recreate _

theorem actsOnFiles_collect : Staging.ActsOnFiles (p.collect here) :=
  Staging.ActsOnFiles.forM (fun _ => Staging.actsOnFiles_attempt _ _ _) _

/-- The files before preparing: nobody adds further sources, and the listed ones are files. -/
structure Gathers (s : Session) : Prop extends s.files.Grounded where
  zeroTemp : 0 ∉ p.paths.temp
  zeroCache : 0 ∉ p.paths.cache
  sources : ∀ source ∈ p.options.additionalSources, 0 ∉ source ∧ s.files.isFile source = true
  alone : p.collaborators.moreSources = none

/-- The directory of the additional sources has been made anew. -/
structure Renews (fs fs' : FileSystem) : Prop where
  plain : fs'.Plain
  here : fs'.here = fs.here
  found : fs'.isDirectory (Staging.additional (pathOf fs.here) p.paths.cache) = true
  empty : fs'.view (additionalIn (p.paths.cacheAt fs.here)) = View.fresh
  contents : ∀ l, ¬ additionalIn (p.paths.cacheAt fs.here) <+: l →
    fs'.contentAt l = fs.contentAt l

variable {p} {s made : Session}

section Renews

variable (h : p.Gathers s) (hlogs : s.logPlaces = [])
include h hlogs

/-- Up to the moment in which the directory is made anew, nothing but directories is made. -/
theorem Gathers.of_run_renew (hrun : ((p.renew s.here).run s).run = (.ok (), made)) :
    ∃ between, (Policy.keepingContents s.files).HoldsIn between ∧ between.files.Grounded ∧
      between.files.Reaches (Path.absoluteNormal s.here p.paths.cache) ∧
      ((Staging.recreate (Staging.additional s.here p.paths.cache)).run between).run =
        (.ok (), made) := by
  obtain ⟨⟨⟩, s₁, htemp, hrun⟩ := of_run_bind hrun
  obtain ⟨⟨⟩, s₂, hgenerated, hrun⟩ := of_run_bind hrun
  obtain ⟨⟨⟩, s₃, htouch, hrecreate⟩ := of_run_bind hrun
  have hcache := (Path.leads s.files.here h.zeroCache).absoluteNormal h.plain.here
  have hname := Staging.isName_generated
  have hleads := Staging.leads_generated (Path.leads s.files.here h.zeroCache) h.plain.here
  have hreach : ∀ at_ back, Staging.MayReach (Policy.keepingContents s.files) at_ back :=
    fun _ _ _ _ _ _ _ => ⟨rfl, by simp⟩
  have hkeeps : (Policy.keepingContents s.files).HoldsIn s :=
    ⟨⟨h.plain, rfl, fun _ => ⟨rfl, id⟩⟩, hlogs⟩
  have hkeeps₁ := (Staging.preserves_ensureDirectory (Path.leads _ h.zeroTemp) (hreach _ _) s
    hkeeps).of_run htemp
  have hkeeps₂ := (Staging.preserves_ensureDirectory hleads (hreach _ _) s₁ hkeeps₁).of_run hgenerated
  have hkeeps₃ := (Staging.preserves_allowWriting (π := Policy.keepingContents s.files) hleads
    (fun _ _ _ _ _ => ⟨rfl, id⟩) s₂ hkeeps₂).of_run htouch
  have hgrounded₁ := Staging.grounded_of_ensureDirectory h.zeroTemp h.toGrounded htemp
  have hgrounded₂ := Staging.grounded_of_ensureDirectory hleads.zero hgrounded₁ hgenerated
  have hleft : ∀ l ∈ Path.left s₁.files.here (Path.absoluteNormal s.here p.paths.cache),
      s₁.files.directoryAt l = true := by
    rw [hkeeps₁.files.here]
    exact fun l hl => absurd (hcache.left ▸ hl) List.not_mem_nil
  obtain ⟨files, hfound, rfl⟩ :=
    Staging.makes_of_ensureDirectory hgrounded₁.plain hcache.zero hname hleft hgenerated
  obtain ⟨hreaches, -, -⟩ :=
    (hgrounded₂.plain.isDirectory_join_iff hcache.zero hname).mp hfound.directory
  have htouched := Staging.touched_of_allowWriting hgrounded₂.plain hcache.zero hname htouch
  refine ⟨s₃, hkeeps₃, ?_, ?_, hrecreate⟩
  · exact hgrounded₂.of_alike htouched.files.plain htouched.files.here
      (fun l => Policy.directoryAt_touching htouched.files)
      (fun l => Policy.isSome_touching htouched.files)
  · exact hreaches.mono htouched.files.here fun l _ hl =>
      (Policy.directoryAt_touching htouched.files).trans hl

theorem Gathers.renews (hrun : ((p.renew s.here).run s).run = (.ok (), made)) :
    p.Renews s.files made.files := by
  obtain ⟨between, hkeeps, hgrounded, hreaches, hrecreate⟩ := h.of_run_renew hlogs hrun
  have hcache := (Path.leads s.files.here h.zeroCache).absoluteNormal h.plain.here
  have hhere : between.files.here = s.files.here := hkeeps.files.here
  obtain ⟨hrebuilds, hfound⟩ := Staging.rebuilds_of_recreate_grounded hgrounded hreaches
    (by rw [hhere]; exact hcache.left) Staging.isName_additional hrecreate
  have hlocation : Path.location between.files.here (Path.absoluteNormal s.here p.paths.cache) =
      p.paths.cacheAt s.files.here := by
    rw [hhere]
    exact hcache.location
  rw [hlocation] at hrebuilds
  refine ⟨hrebuilds.plain, hrebuilds.here.trans hhere, hfound, hrebuilds.inside, fun l hl => ?_⟩
  refine Eq.trans ?_ (hkeeps.files.may l).1
  unfold contentAt
  cases hrebuilds.beside hl with
  | same heq => rw [heq]
  | made _ hbefore hafter =>
    rw [hbefore, hafter]
    rfl
  | logged hlog _ _ =>
    rw [hkeeps.logPlaces] at hlog
    exact absurd hlog List.not_mem_nil

end Renews

/-- Sources are copied one after the other. -/
theorem collects_of_forM {fs : FileSystem} {dir : Path} {sources copied : List Path} {t after : Session}
    (hempty : ∀ name, fs.get? (Path.location fs.here dir ++ [name]) = none) (hdir : fs.Reaches dir)
    (hsources : ∀ source ∈ sources, 0 ∉ source ∧ IsName (Path.fileName source) ∧
      ∃ folder, Path.location fs.here source = folder ++ [Path.fileName source])
    (h : fs.Collects t.files dir copied)
    (hrun : ((sources.forM (copySource dir)).run t).run = (.ok (), after)) :
    fs.Collects after.files dir (copied ++ sources) := by
  induction sources generalizing t copied with
  | nil =>
    obtain ⟨-, rfl⟩ := Prod.mk.inj hrun
    rwa [List.append_nil]
  | cons source sources ih =>
    obtain ⟨⟨hzero, hname, hends⟩, hrest⟩ := List.forall_mem_cons.mp hsources
    obtain ⟨⟨⟩, between, hcopy, hlater⟩ := of_run_bind hrun
    obtain ⟨files, hfile, rfl⟩ := Staging.of_run_attempt hcopy
    have hone := h.concat hempty hdir hzero hname hends hfile
    have hall := @ih _ { t with files } hrest hone hlater
    rwa [List.append_assoc] at hall

/-- A source ends in the name of its file. -/
theorem Gathers.named (h : p.Gathers s) {source : Path} (hsource : source ∈ p.options.additionalSources) :
    0 ∉ source ∧ IsName (Path.fileName source) ∧
      ∃ folder, Path.location s.files.here source = folder ++ [Path.fileName source] := by
  obtain ⟨hzero, hfile⟩ := h.sources source hsource
  obtain ⟨at_, mode, content, hstatus⟩ := exists_status_of_isFile hfile
  obtain ⟨rfl, -⟩ := h.plain.of_status hzero hstatus
  exact ⟨hzero, h.isName_fileName hzero hstatus⟩

section Collect

variable {after : Session} (h : p.Gathers s) (hmade : p.Renews s.files made.files)
include h hmade

/-- Nothing is in the directory that has been made anew. -/
theorem Renews.get?_additional (name : Text) : made.files.get?
    (Path.location made.files.here (Staging.additional s.here p.paths.cache) ++ [name]) = none := by
  have hleads := Staging.leads_additional (Path.leads s.files.here h.zeroCache) h.plain.here
  rw [hmade.here, show Path.location s.files.here (Staging.additional s.here p.paths.cache) = _ from
    hleads.location]
  exact congrFun hmade.empty [name]

theorem Gathers.collects (hrun : ((p.collect s.here).run made).run = (.ok (), after)) :
    made.files.Collects after.files (Staging.additional s.here p.paths.cache)
      p.options.additionalSources := by
  have hempty := hmade.get?_additional h
  have hcache := (Path.leads s.files.here h.zeroCache).absoluteNormal h.plain.here
  obtain ⟨hreaches, -, hdirectory⟩ :=
    (hmade.plain.isDirectory_join_iff hcache.zero Staging.isName_additional).mp hmade.found
  have hdir := (reaches_join Staging.isName_additional).mpr ⟨hreaches, hdirectory⟩
  refine @collects_of_forM _ _ _ [] _ _ hempty hdir (fun source hsource => ?_)
    (collects_nil hempty hmade.plain) hrun
  rw [hmade.here]
  exact h.named hsource

variable (hcollects : made.files.Collects after.files (Staging.additional s.here p.paths.cache)
  p.options.additionalSources)
include hcollects

/-- The directory of the additional sources can be entered and listed. -/
theorem Gathers.list_additional :
    after.files.Reaches (Staging.additional s.here p.paths.cache) ∧
      after.files.list (Staging.additional s.here p.paths.cache) = .ok (after.files.names
        (Path.location after.files.here (Staging.additional s.here p.paths.cache))) := by
  have hcache := (Path.leads s.files.here h.zeroCache).absoluteNormal h.plain.here
  have hname := Staging.isName_additional
  have hfound := hmade.plain.isDirectory_mono hcollects.plain hcache.zero hname hcollects.here
    (fun l _ => hcollects.directoryAt (hmade.get?_additional h)) hmade.found
  obtain ⟨hreaches, hshort, hdirectory⟩ :=
    (hcollects.plain.isDirectory_join_iff hcache.zero hname).mp hfound
  have hlocation : Path.location after.files.here (Staging.additional s.here p.paths.cache) =
      Path.location after.files.here (Path.absoluteNormal s.here p.paths.cache) ++
        [utf8 "additionalCppFiles"] := Path.location_join hname _ _
  rw [hlocation]
  exact ⟨(reaches_join hname).mpr ⟨hreaches, hdirectory⟩,
    hcollects.plain.list_join hreaches hname hshort hdirectory⟩

/-- The names that the generator is told of are those of the sources. -/
theorem Gathers.sourceNames_eq : p.sourceNames after.files s.here =
    (Path.byFileName p.options.additionalSources).map (·.1) := by
  obtain ⟨hdir, hlist⟩ := h.list_additional hmade hcollects
  unfold sourceNames
  refine Dictionary.sorted_eq_keys (Path.isSorted_byFileName _) fun name => ?_
  rw [hlist]
  dsimp only
  rw [List.mem_filter, mem_names_iff, hcollects.here, hcollects.inside]
  constructor
  · rintro ⟨⟨entry, hget⟩, -⟩
    obtain ⟨source, hsource, -⟩ := Option.bind_eq_some_iff.mp hget
    rw [hsource]
    rfl
  · intro hsome
    obtain ⟨source, hsource⟩ := Option.isSome_iff_exists.mp hsome
    obtain ⟨hmem, rfl⟩ := Path.of_get?_byFileName hsource
    obtain ⟨hlength, mode, content, hget⟩ := hcollects.found source hmem
    have hinside := hcollects.inside (Path.fileName source)
    rw [hsource, Option.bind_some, hget] at hinside ⊢
    refine ⟨⟨_, rfl⟩, ?_⟩
    have hstatus := hcollects.plain.status_join hdir (h.named hmem).2.1
    rw [if_neg (Nat.not_le.mpr hlength), hcollects.here, hinside] at hstatus
    unfold isFile
    rw [hstatus]
    rfl

/-- The file for a name holds what its source held. -/
theorem Gathers.contentAt_additional {name : Text} {source : Path}
    (hkept : (name, source) ∈ Path.byFileName p.options.additionalSources) :
    IsName name ∧ ∃ content, s.files.content? source = some content ∧
      after.files.contentAt (additionalIn (p.paths.cacheAt s.files.here) ++ [name]) =
        some content := by
  have hleads := Staging.leads_additional (Path.leads s.files.here h.zeroCache) h.plain.here
  have hlocation : Path.location s.files.here (Staging.additional s.here p.paths.cache) =
    additionalIn (p.paths.cacheAt s.files.here) := hleads.location
  have hsource := Dictionary.get?_of_mem (Path.isSorted_byFileName _) hkept
  obtain ⟨hmem, rfl⟩ := Path.of_get?_byFileName hsource
  obtain ⟨-, mode, content, hget⟩ := hcollects.found source hmem
  have hinside := hcollects.inside (Path.fileName source)
  rw [hsource, Option.bind_some, hget, hmade.here, hlocation] at hinside
  rw [hmade.here] at hget
  obtain ⟨hzero, hfile⟩ := h.sources source hmem
  obtain ⟨at_, mode', old, hstatus⟩ := exists_status_of_isFile hfile
  obtain ⟨rfl, -⟩ := h.plain.of_status hzero hstatus
  -- Below the directory that was made anew nothing was left to be copied.
  have houtside : ¬ additionalIn (p.paths.cacheAt s.files.here) <+:
      Path.location s.files.here source := by
    rintro ⟨rel, hrel⟩
    have hfresh := congrFun hmade.empty rel
    unfold view at hfresh
    rw [hrel, hget] at hfresh
    cases rel <;> cases hfresh
  have hsame := hmade.contents _ houtside
  unfold contentAt at hsame ⊢
  rw [hget, get?_of_status hstatus rfl] at hsame
  obtain rfl : content = old := Option.some.inj hsame
  refine ⟨(h.named hmem).2.1, content, ?_, by rw [hinside]; rfl⟩
  unfold content? FileSystem.read
  rw [hstatus]
  rfl

end Collect

/-- The path by which the generator is told of a file in the directory of the additional sources. -/
def sourcePath (p : Plan) (here : Path) (name : Text) : Path :=
  Path.absoluteNormal here (Path.join (Staging.additional here p.paths.cache) name)

/-- What is left of the additional sources once they are prepared. -/
structure KeepsLast (p : Plan) (fs fs' : FileSystem) : Prop where
  /-- The generator is told of one file for each file name, by increasing name. -/
  arguments : p.sourceArguments fs' (pathOf fs.here) =
    (Path.byFileName p.options.additionalSources).map fun e =>
      quoted "--additional-cpp=" (p.sourcePath (pathOf fs.here) e.1)
  /-- Its path leads into the directory of the additional sources, and it holds what the last source
  with the name held before. -/
  holds : ∀ name source, (name, source) ∈ Path.byFileName p.options.additionalSources →
    Path.Leads fs.here (p.sourcePath (pathOf fs.here) name)
        (additionalIn (p.paths.cacheAt fs.here) ++ [name]) [] ∧
      ∃ content, fs.content? source = some content ∧
        fs'.contentAt (additionalIn (p.paths.cacheAt fs.here) ++ [name]) = some content
  /-- Every command line for generating has these arguments. -/
  told : ∀ managed arguments, p.generateArguments fs' managed = .ok arguments →
    p.sourceArguments fs' (pathOf fs.here) <:+: arguments
  /-- There are as many of them as sources exactly if no two sources have one file name. -/
  count : (p.sourceArguments fs' (pathOf fs.here)).length = p.options.additionalSources.length ↔
    (p.options.additionalSources.map Path.fileName).Nodup
  /-- Then each source is the last one with its name. -/
  each : (p.options.additionalSources.map Path.fileName).Nodup →
    ∀ source ∈ p.options.additionalSources,
      (Path.fileName source, source) ∈ Path.byFileName p.options.additionalSources

/-- The additional sources stand together on the command line for generating. -/
theorem sourceArguments_isInfix {fs : FileSystem} {managed : Path} {arguments : List Text}
    (h : p.generateArguments fs managed = .ok arguments) :
    p.sourceArguments fs (pathOf fs.here) <:+: arguments := by
  cases hprofile : p.options.profileName with
  | error failure =>
    unfold generateArguments at h
    dsimp only at h
    rw [hprofile] at h
    cases h
  | ok profile =>
    obtain rfl := Except.ok.inj ((p.generateArguments_eq hprofile fs managed).symm.trans h)
    have hmerged (front sources back shared tools : List Text) :
        sources <:+: appendUnique (appendUnique (front ++ sources ++ back) shared) tools :=
      List.IsInfix.trans ⟨front, back, rfl⟩
        ((prefix_appendUnique _ shared).trans (prefix_appendUnique _ tools)).isInfix
    refine List.IsInfix.trans ?_ (List.prefix_append _ _).isInfix
    refine List.IsInfix.trans ?_ (List.prefix_append _ _).isInfix
    exact (hmerged _ _ _ _ _).trans (List.prefix_append _ _).isInfix

/-- When the additional sources have been prepared, the generator is told of one file for each file
name, with the content of the last source that has the name. It is told of every source exactly if
no two of them have one file name. -/
theorem prepare_keeps_last_of_each_name (p : Plan) (s after : State) (h : p.Gathers s.session)
    (hrun : exec p.prepare s = (.ok (), after)) :
    p.KeepsLast s.session.files after.session.files := by
  rw [p.prepare_eq_perform h.alone, exec_bind_ok (exec_get s), exec_perform] at hrun
  cases hprepare : ((p.renew s.session.here >>= fun _ => p.collect s.session.here).run
      s.session).run with
  | mk result session =>
    rw [hprepare] at hrun
    cases result with
    | error failure => cases congrArg Prod.fst hrun
    | ok =>
      obtain rfl : { s with session } = after := congrArg Prod.snd hrun
      -- Nothing is logged, so it may as well be a session without logs.
      let quiet : Session := { files := s.session.files }
      have hgathers : p.Gathers quiet :=
        ⟨h.toGrounded, h.zeroTemp, h.zeroCache, h.sources, h.alone⟩
      have hquiet := ((p.actsOnFiles_renew s.session.here).bind fun _ =>
        p.actsOnFiles_collect s.session.here).run_eq hprepare quiet rfl
      obtain ⟨⟨⟩, made, hrenew, hcollect⟩ := of_run_bind hquiet
      have hmade := hgathers.renews rfl hrenew
      have hcollects := hgathers.collects hmade hcollect
      have harguments : p.sourceArguments session.files (pathOf s.session.files.here) =
          (Path.byFileName p.options.additionalSources).map fun e =>
            quoted "--additional-cpp=" (p.sourcePath (pathOf s.session.files.here) e.1) := by
        have hnames := hgathers.sourceNames_eq hmade hcollects
        have hquoted := congrArg (List.map fun name =>
          quoted "--additional-cpp=" (p.sourcePath (pathOf s.session.files.here) name)) hnames
        rwa [List.map_map] at hquoted
      refine ⟨harguments, fun name source hkept => ?_, fun managed arguments harguments => ?_, ?_,
        fun hnodup source => Path.mem_byFileName_of_nodup hnodup⟩
      · obtain ⟨hname, hcontent⟩ := hgathers.contentAt_additional hmade hcollects hkept
        have hleads := Staging.leads_additional (Path.leads s.session.files.here h.zeroCache)
          h.plain.here
        exact ⟨(hleads.join hname).absoluteNormal h.plain.here, hcontent⟩
      · have hhere : session.files.here = s.session.files.here :=
          hcollects.here.trans hmade.here
        rw [← hhere]
        exact sourceArguments_isInfix harguments
      · rw [harguments, List.length_map]
        exact Path.length_byFileName_eq_iff

/-- A plan with two sources of one name. -/
def gathering : Plan where
  options := { additionalSources := [utf8 "/a/x.cpp", utf8 "/b/x.cpp", utf8 "/b/y.cpp"] }
  paths := { temp := utf8 "/t", cache := utf8 "/c", staging := utf8 "/s" }
  generator := utf8 "/g"
  launcher := fun _ _ _ => {}

/-- Three sources, and one that an earlier build has left in the cache. -/
def twoOfOneName : State where
  session :=
    { files :=
        { entries :=
            [([utf8 "a"], .directory 0o755), ([utf8 "a", utf8 "x.cpp"], .file 0o644 (utf8 "1")),
              ([utf8 "b"], .directory 0o755), ([utf8 "b", utf8 "x.cpp"], .file 0o644 (utf8 "2")),
              ([utf8 "b", utf8 "y.cpp"], .file 0o644 (utf8 "3")), ([utf8 "c"], .directory 0o755),
              ([utf8 "c", utf8 "additionalCppFiles"], .directory 0o755),
              ([utf8 "c", utf8 "additionalCppFiles", utf8 "old.cpp"], .file 0o444 (utf8 "4"))] } }

theorem gathers_twoOfOneName : gathering.Gathers twoOfOneName.session where
  plain := plain_of_entries (by decide +kernel) (by decide +kernel)
  closed := closed_of_entries (by decide +kernel)
  here := by decide +kernel
  zeroTemp := by decide +kernel
  zeroCache := by decide +kernel
  sources := by decide +kernel
  alone := rfl

/-- The first source is lost: two arguments are left for three sources. -/
theorem prepare_keeps_last_of_each_name_of_twoOfOneName :
    gathering.KeepsLast twoOfOneName.session.files
        (exec gathering.prepare twoOfOneName).2.session.files ∧
      gathering.sourceArguments (exec gathering.prepare twoOfOneName).2.session.files (utf8 "/") =
        [utf8 "--additional-cpp=\"/c/additionalCppFiles/x.cpp\"",
          utf8 "--additional-cpp=\"/c/additionalCppFiles/y.cpp\""] ∧
      (exec gathering.prepare twoOfOneName).2.session.files.contentAt
        [utf8 "c", utf8 "additionalCppFiles", utf8 "x.cpp"] = some (utf8 "2") := by
  have hok : (exec gathering.prepare twoOfOneName).1.isOk = true := by decide +kernel
  refine ⟨?_, by decide +kernel, by decide +kernel⟩
  have hkeeps := gathering.prepare_keeps_last_of_each_name twoOfOneName
    (exec gathering.prepare twoOfOneName).2 gathers_twoOfOneName
  generalize exec gathering.prepare twoOfOneName = final at hok hkeeps ⊢
  obtain ⟨result, after⟩ := final
  cases result with
  | error => cases hok
  | ok => exact hkeeps rfl

end Plan

end NativeBuild
