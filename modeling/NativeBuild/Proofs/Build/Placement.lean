import NativeBuild.Proofs.Build.Restaging
import NativeBuild.Proofs.Files.Grounded

/-!
# What staging makes of the files

If staging succeeds and the cache has generated sources, those of the temporary directory are
theirs. The native libraries and the data files of the cache have arrived in the staging area, no
other file of it has changed, and nothing in the cache has. A native library that meets a
directory is the exception: the directory stays, and takes the library in. To stage again changes
nothing.
-/
namespace NativeBuild

open FileSystem BuildPaths Build
open NativeBuild.Path (IsName)

/-- The files before staging. -/
structure Plan.Standing (p : Plan) (s : Session) : Prop extends p.Separate s where
  /-- Every entry is in a directory. -/
  closed : (s.files.view []).Closed
  here : s.files.directoryAt s.files.here = true

namespace Plan

variable {p : Plan} {s t : Session}

theorem Standing.ready (h : p.Standing s) : p.Ready s where
  toSeparate := h.toSeparate
  closed := closed_view h.closed _
  native hnative := by
    refine h.plain.reaches h.zeroCache fun l hl => ?_
    exact hl.elim (fun hway => directoryAt_way h.closed (hway.trans (List.prefix_append _ _)) hnative)
      fun hleft => (h.back l (.inl hleft)).1
  generated hthere := by
    have htemp := (Path.leads s.files.here h.zeroTemp).absoluteNormal h.plain.here
    refine h.plain.reaches htemp.zero fun l hl => ?_
    have hlocation : Path.location s.files.here (Path.absoluteNormal s.here p.paths.temp) =
      p.paths.tempAt s.files.here := htemp.location
    have hleft : Path.left s.files.here (Path.absoluteNormal s.here p.paths.temp) = [] := htemp.left
    rw [hlocation, hleft] at hl
    have hway := hl.resolve_right List.not_mem_nil
    exact directoryAt_of_closed h.closed (hway.trans (List.prefix_append _ _))
      (fun heq => not_name_isPrefix _ _ (heq ▸ hway)) hthere
  here l hl _ := directoryAt_way h.closed hl h.here
  nothing hnone l hl := by
    by_contra hthere
    by_cases heq : generatedIn (p.paths.tempAt s.files.here) = l
    · exact hthere (heq ▸ hnone)
    · have hdirectory := directoryAt_of_closed h.closed hl heq hthere
      unfold directoryAt at hdirectory
      rw [hnone] at hdirectory
      cases hdirectory

/-- A file of the cache arrives at a place in the staging area. -/
inductive Arrives (p : Plan) (fs : FileSystem) : Location → Nat × Text → Prop
  /-- A native library goes to its own place, if no directory stands there. -/
  | native {rel : Location} {file : Nat × Text}
      (hthere : fs.isDirectory (Staging.native p.paths.cache) = true)
      (hfile : fs.file? (nativeIn (p.paths.cacheAt fs.here) ++ rel) = some file)
      (hfree : fs.directoryAt (nativeIn (p.paths.stagingAt fs.here) ++ rel) = false) :
      Arrives p fs (nativeIn (p.paths.stagingAt fs.here) ++ rel) file
  /-- A directory that stands there takes it in, under its own name. -/
  | inside {rel : Location} {name : Text} {file : Nat × Text}
      (hthere : fs.isDirectory (Staging.native p.paths.cache) = true)
      (hfile : fs.file? (nativeIn (p.paths.cacheAt fs.here) ++ rel ++ [name]) = some file)
      (hmet : fs.directoryAt (nativeIn (p.paths.stagingAt fs.here) ++ rel ++ [name]) = true) :
      Arrives p fs (nativeIn (p.paths.stagingAt fs.here) ++ rel ++ [name] ++ [name]) file
  /-- A data file goes directly into the directory for its kind. -/
  | data {folder ending name : Text} {file : Nat × Text} (hfolder : Staging.DataFolder folder ending)
      (hending : ending.isSuffixOf name = true)
      (hfile : fs.file? (dataIn (generatedIn (p.paths.cacheAt fs.here)) folder ++ [name]) = some file) :
      Arrives p fs (p.paths.managedAt fs.here ++ [folder] ++ [name]) file

/-- What staging makes of the files. -/
structure Places (p : Plan) (fs fs' : FileSystem) : Prop where
  /-- The generated sources are those of the cache, file by file and directory by directory. -/
  generated : ∀ rel, fs'.file? (generatedIn (p.paths.tempAt fs.here) ++ rel) =
    fs.file? (generatedIn (p.paths.cacheAt fs.here) ++ rel)
  directories : ∀ rel, fs'.directoryAt (generatedIn (p.paths.tempAt fs.here) ++ rel) =
    fs.directoryAt (generatedIn (p.paths.cacheAt fs.here) ++ rel)
  arrived : ∀ l file, p.Arrives fs l file → fs'.file? l = some file
  other : ∀ l, p.paths.stagingAt fs.here <+: l → (∀ file, ¬ p.Arrives fs l file) →
    fs'.file? l = fs.file? l
  cache : ∀ l, p.paths.cacheAt fs.here <+: l → fs'.get? l = fs.get? l

section Placement

variable (h : p.Standing s) (hstages : p.Stages IsData s t)
include h hstages

theorem Standing.file?_generated (rel : Location) :
    t.files.file? (generatedIn (p.paths.tempAt s.files.here) ++ rel) =
      s.files.file? (generatedIn (p.paths.cacheAt s.files.here) ++ rel) := by
  have hhere := hstages.underway.confined.here
  have hcache := h.ready.view_cache hstages.underway
    (l := generatedIn (p.paths.cacheAt s.files.here)) (List.prefix_append _ _)
  have hview := hstages.ready.view_generated hstages.hasGenerated rel
  have hroot := hstages.ready.directoryAt_cache hstages.hasGenerated
  rw [hhere, hcache] at hview hroot
  refine (congrArg fileOf hview).trans ?_
  split
  · next hrel =>
    subst hrel
    obtain ⟨mode, hget⟩ := View.directoryAt_iff.mp hroot
    exact (congrArg fileOf hget).symm
  · change _ = fileOf (s.files.view (generatedIn (p.paths.cacheAt s.files.here)) rel)
    cases s.files.view (generatedIn (p.paths.cacheAt s.files.here)) rel with
    | none => rfl
    | some entry => cases entry <;> rfl

theorem Standing.directoryAt_generated (rel : Location) :
    t.files.directoryAt (generatedIn (p.paths.tempAt s.files.here) ++ rel) =
      s.files.directoryAt (generatedIn (p.paths.cacheAt s.files.here) ++ rel) := by
  have hdirectory := hstages.ready.directoryAt_generated hstages.hasGenerated rel
  rw [hstages.underway.confined.here, h.ready.view_cache hstages.underway (l := generatedIn _)
    (List.prefix_append _ _)] at hdirectory
  exact hdirectory

theorem Standing.get?_cache {l : Location} (hl : p.paths.cacheAt s.files.here <+: l) :
    t.files.get? l = s.files.get? l := by
  rw [← view_nil, h.ready.view_cache hstages.underway hl, view_nil]

omit hstages in
/-- The root of the native libraries is a directory. -/
theorem Standing.native_root (hthere : s.files.isDirectory (Staging.native p.paths.cache) = true) :
    (s.files.view (nativeIn (p.paths.cacheAt s.files.here))).directoryAt [] = true := by
  obtain ⟨-, -, hdirectory⟩ :=
    (h.plain.isDirectory_join_iff h.zeroCache Staging.isName_native).mp hthere
  rw [view_directoryAt_nil]
  exact hdirectory

omit h hstages in
/-- Where a native library goes. -/
theorem landingAt_native {rel : Location} (hrel : rel ≠ []) (name : Text) :
    View.landingAt name (s.files.view (nativeIn (p.paths.stagingAt s.files.here))).entered rel =
      if s.files.directoryAt (nativeIn (p.paths.stagingAt s.files.here) ++ rel)
      then rel ++ [rel.getLastD name] else rel := by
  rw [View.landingAt_eq]
  unfold View.directoryAt View.entered
  rw [if_neg hrel]
  rfl

/-- A native library is found where it goes. -/
theorem Standing.file?_landing {rel : Location} {file : Nat × Text}
    (hthere : s.files.isDirectory (Staging.native p.paths.cache) = true)
    (hfile : s.files.file? (nativeIn (p.paths.cacheAt s.files.here) ++ rel) = some file) :
    rel ≠ [] ∧ t.files.file? (nativeIn (p.paths.stagingAt s.files.here) ++
      View.landingAt (utf8 "Native")
        (s.files.view (nativeIn (p.paths.stagingAt s.files.here))).entered rel) = some file := by
  obtain ⟨mode, content⟩ := file
  have hget : s.files.view (nativeIn (p.paths.cacheAt s.files.here)) rel = some (.file mode content) :=
    fileOf_eq_some.mp hfile
  have hnative := hstages.native
  rw [if_pos hthere] at hnative
  refine ⟨?_, ?_⟩
  · rintro rfl
    obtain ⟨mode', hroot⟩ := View.directoryAt_iff.mp (h.native_root hthere)
    cases hroot.symm.trans hget
  · refine (congrArg fileOf (congrFun hnative _)).trans ?_
    rw [View.overlay_landingAt (closed_view h.closed _) hget rfl]
    rfl

/-- The data files among the generated sources are those of the cache. -/
theorem Standing.fileOf_data (folder name : Text) :
    fileOf (t.files.view (dataIn (generatedIn (p.paths.tempAt s.files.here)) folder) [name]) =
      s.files.file? (dataIn (generatedIn (p.paths.cacheAt s.files.here)) folder ++ [name]) := by
  have hgenerated := h.file?_generated hstages [utf8 "Data", folder, name]
  unfold dataIn
  unfold view
  rw [List.append_assoc, List.append_assoc, List.append_assoc, List.append_assoc]
  exact hgenerated

theorem Standing.arrived {l : Location} {file : Nat × Text} (harrives : p.Arrives s.files l file) :
    t.files.file? l = some file := by
  cases harrives with
  | @native rel _ hthere hfile hfree =>
    obtain ⟨hrel, hfound⟩ := h.file?_landing hstages hthere hfile
    rwa [landingAt_native hrel, hfree, if_neg (by simp)] at hfound
  | @inside rel name _ hthere hfile hmet =>
    rw [List.append_assoc] at hfile hmet
    obtain ⟨hrel, hfound⟩ := h.file?_landing hstages hthere hfile
    rw [landingAt_native hrel, hmet, if_pos rfl, List.getLastD_concat] at hfound
    simpa only [List.append_assoc] using hfound
  | @data folder ending name _ hfolder hending hfile =>
    obtain ⟨mode, content⟩ := file
    have hget := fileOf_eq_some.mp ((h.fileOf_data hstages folder name).trans hfile)
    have hthere : (s.files.view (generatedIn (p.paths.cacheAt s.files.here))).directoryAt
        [utf8 "Data", folder] = true := by
      refine closed_view h.closed _ [utf8 "Data", folder] name ?_
      have hcached := fileOf_eq_some.mp hfile
      unfold dataIn at hcached
      rw [List.append_assoc, List.append_assoc] at hcached
      exact fun hnone => by cases hnone.symm.trans hcached
    obtain ⟨hlaid, -⟩ := (hstages.folders folder ending hfolder).data hfolder.isData hthere
    have hmatches : View.Matches ending
        (t.files.view (dataIn (generatedIn (p.paths.tempAt s.files.here)) folder)) name :=
      ⟨hending, by rw [View.fileAt, hget]; rfl⟩
    refine (congrArg fileOf (congrFun hlaid [name])).trans ?_
    rw [View.matching_name, if_pos hmatches, hget]
    rfl

/-- Where no native library arrives, the files are the same. -/
theorem Standing.other_native {rel : Location}
    (hnone : ∀ file, ¬ p.Arrives s.files (nativeIn (p.paths.stagingAt s.files.here) ++ rel) file) :
    t.files.file? (nativeIn (p.paths.stagingAt s.files.here) ++ rel) =
      s.files.file? (nativeIn (p.paths.stagingAt s.files.here) ++ rel) := by
  have hnative := hstages.native
  cases hthere : s.files.isDirectory (Staging.native p.paths.cache) with
  | false =>
    rw [hthere, if_neg (by simp)] at hnative
    exact congrArg fileOf (congrFun hnative rel)
  | true =>
    rw [hthere, if_pos rfl] at hnative
    refine (congrArg fileOf (congrFun hnative rel)).trans ((View.fileOf_overlay ?_).trans
      (View.fileOf_entered _ rel))
    -- A file of the cache that goes here arrives here, against the assumption.
    intro place entry hplace hfile hlanding
    cases entry with
    | directory => cases hfile
    | link target => exact h.plain.links _ target hplace
    | file mode content =>
      have hcached := fileOf_eq_some.mpr hplace
      obtain ⟨hne, -⟩ := h.file?_landing hstages hthere hcached
      rw [landingAt_native hne] at hlanding
      subst hlanding
      split at hnone
      · next hmet =>
        obtain hnil | ⟨front, name, rfl⟩ := List.eq_nil_or_concat' place
        · exact hne hnil
        rw [List.getLastD_concat] at hnone
        have harrives := @Arrives.inside p _ front name (mode, content)
          hthere (by rw [List.append_assoc]; exact hcached) (by rw [List.append_assoc]; exact hmet)
        simp only [List.append_assoc] at harrives hnone
        exact hnone _ harrives
      · next hfree => exact hnone _ (.native hthere hcached (Bool.eq_false_iff.mpr hfree))

/-- Where no data file arrives, the files are the same. -/
theorem Standing.other_data {folder : Text} {rel : Location} (hfolder : IsData folder)
    (hnone : ∀ file, ¬ p.Arrives s.files (p.paths.managedAt s.files.here ++ [folder] ++ rel) file) :
    t.files.file? (p.paths.managedAt s.files.here ++ [folder] ++ rel) =
      s.files.file? (p.paths.managedAt s.files.here ++ [folder] ++ rel) := by
  obtain ⟨ending, hfolder⟩ := Staging.DataFolder.exists_ending hfolder
  obtain ⟨hdata, hother⟩ := hstages.folders folder ending hfolder
  by_cases hthere : (s.files.view (generatedIn (p.paths.cacheAt s.files.here))).directoryAt
      [utf8 "Data", folder] = true
  · obtain ⟨hlaid, -⟩ := hdata hfolder.isData hthere
    refine (congrArg fileOf (congrFun hlaid rel)).trans (Eq.trans ?_
      (View.fileOf_entered (s.files.view (p.paths.managedAt s.files.here ++ [folder])) rel))
    by_cases hname : ∃ name, rel = [name]
    · obtain ⟨name, rfl⟩ := hname
      rw [View.matching_name, if_neg]
      rintro ⟨hending, hfile⟩
      have hcached := h.fileOf_data hstages folder name
      unfold View.fileAt at hfile
      cases hget : t.files.view (dataIn (generatedIn (p.paths.tempAt s.files.here)) folder) [name] with
      | none =>
        rw [hget] at hfile
        cases hfile
      | some entry =>
        rw [hget] at hfile hcached
        cases entry with
        | file mode content => exact hnone _ (.data hfolder hending hcached.symm)
        | _ => cases hfile
    · rw [View.matching_of_ne fun name heq => hname ⟨name, heq⟩]
  · exact congrArg fileOf (congrFun (hother fun hboth => hthere hboth.2) rel)

theorem Standing.other {l : Location} (hl : p.paths.stagingAt s.files.here <+: l)
    (hnone : ∀ file, ¬ p.Arrives s.files l file) : t.files.file? l = s.files.file? l := by
  by_cases hnative : nativeIn (p.paths.stagingAt s.files.here) <+: l
  · obtain ⟨rel, rfl⟩ := hnative
    exact h.other_native hstages hnone
  by_cases hdata : ∃ folder, IsData folder ∧ p.paths.managedAt s.files.here ++ [folder] <+: l
  · obtain ⟨folder, hfolder, rel, rfl⟩ := hdata
    exact h.other_data hstages hfolder hnone
  have hbeside := hstages.underway.confined.beside l fun root hroot hin => by
    cases hroot with
    | generated => exact (h.disjoint.apart_generated List.prefix_rfl).not_both hin hl
    | native => exact hnative hin
    | data hfolder => exact hdata ⟨_, hfolder, hin⟩
  unfold file?
  cases hbeside with
  | same heq => rw [heq]
  | made _ hbefore hafter => rw [hbefore, hafter]; rfl
  | logged hlog => exact absurd hl (h.logs l hlog).2.2

/-- When every step has succeeded, the files of the cache are in place. -/
theorem Standing.places : p.Places s.files t.files where
  generated := h.file?_generated hstages
  directories := h.directoryAt_generated hstages
  arrived _ _ := h.arrived hstages
  other _ := h.other hstages
  cache _ := h.get?_cache hstages

end Placement

/-- If staging succeeds, the files of the cache are in place; it succeeds again then, and changes
nothing but logs. -/
theorem stage_places_cache (p : Plan) (s after : State) (h : p.Standing s.session)
    (hcache : s.session.files.isDirectory (Staging.generated s.session.here p.paths.cache) = true)
    (hrun : exec p.stage s = (.ok (), after)) :
    p.Places s.session.files after.session.files ∧
      ∃ final, exec p.stage after = (.ok (), final) ∧
        ∀ l, l ∉ s.session.logPlaces → final.session.files.get? l = after.session.files.get? l := by
  have hexec : ∀ s, exec p.stage s = exec (perform (p.publish s.session.here)) s := fun s => by
    rw [stage_eq_perform]
    exact exec_bind_ok (exec_get s)
  rw [hexec, exec_perform] at hrun
  cases hpublish : ((p.publish s.session.here).run s.session).run with
  | mk result session =>
    rw [hpublish] at hrun
    cases result with
    | error failure => cases congrArg Prod.fst hrun
    | ok =>
      obtain rfl : { s with session } = after := congrArg Prod.snd hrun
      have hstages := h.ready.stages hcache hpublish
      obtain ⟨final, hagain, halike⟩ := (hstages.settled h.ready).publish_again
      refine ⟨h.places hstages, { s with session := final }, ?_, fun l hl => ?_⟩
      · rw [hexec, exec_perform, hagain]
      · exact halike.get?_eq (by rwa [hstages.underway.confined.logPlaces])

/-- A cache with a library, a source and a data file, and a staging area with a directory in the
place of the library. -/
def metByDirectory : State where
  session :=
    { files :=
        { entries :=
            [([utf8 "c"], .directory 0o755), ([utf8 "c", utf8 "Native"], .directory 0o755),
              ([utf8 "c", utf8 "Native", utf8 "l.so"], .file 0o644 (utf8 "x")),
              ([utf8 "c", utf8 "il2cppOutput"], .directory 0o755),
              ([utf8 "c", utf8 "il2cppOutput", utf8 "a.cpp"], .file 0o644 (utf8 "y")),
              ([utf8 "c", utf8 "il2cppOutput", utf8 "Data"], .directory 0o755),
              ([utf8 "c", utf8 "il2cppOutput", utf8 "Data", utf8 "Metadata"], .directory 0o755),
              ([utf8 "c", utf8 "il2cppOutput", utf8 "Data", utf8 "Metadata", utf8 "g-metadata.dat"],
                .file 0o644 (utf8 "z")),
              ([utf8 "s"], .directory 0o755), ([utf8 "s", utf8 "Native"], .directory 0o755),
              ([utf8 "s", utf8 "Native", utf8 "l.so"], .directory 0o755)] } }

/-- A plan with absolute paths. -/
def copying : Plan where
  options := {}
  paths := { temp := utf8 "/t", cache := utf8 "/c", staging := utf8 "/s" }
  generator := utf8 "/g"
  launcher := fun _ _ _ => {}

theorem standing_copying : copying.Standing metByDirectory.session where
  plain := plain_of_entries (by decide +kernel) (by decide +kernel)
  zeroTemp := by decide +kernel
  zeroCache := by decide +kernel
  zeroStaging := by decide +kernel
  disjoint := ⟨by decide +kernel, by decide +kernel, by decide +kernel⟩
  logs := by decide +kernel
  back := by
    rw [show Path.left metByDirectory.session.files.here copying.paths.cache = [] by decide +kernel,
      show Path.left metByDirectory.session.files.here copying.paths.staging = [] by decide +kernel]
    simp
  closed := closed_of_entries (by decide +kernel)
  here := by decide +kernel

/-- The directory has taken the library in, and the other files are where they belong. -/
theorem stage_places_cache_of_metByDirectory :
    copying.Places metByDirectory.session.files (exec copying.stage metByDirectory).2.session.files ∧
      (exec copying.stage metByDirectory).2.session.files.directoryAt
        [utf8 "s", utf8 "Native", utf8 "l.so"] = true ∧
      (exec copying.stage metByDirectory).2.session.files.file?
        [utf8 "s", utf8 "Native", utf8 "l.so", utf8 "l.so"] = some (0o644, utf8 "x") := by
  have hok : (exec copying.stage metByDirectory).1.isOk = true := by decide +kernel
  refine ⟨?_, by decide +kernel, by decide +kernel⟩
  have hplaces := copying.stage_places_cache metByDirectory
    (exec copying.stage metByDirectory).2 standing_copying (by decide +kernel)
  generalize exec copying.stage metByDirectory = final at hok hplaces ⊢
  obtain ⟨result, after⟩ := final
  cases result with
  | error => cases hok
  | ok => exact (hplaces rfl).1

end Plan

end NativeBuild
