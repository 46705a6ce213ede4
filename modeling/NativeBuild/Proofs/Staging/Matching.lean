import NativeBuild.Proofs.Staging.Trees

/-!
# The files that are copied by their names

Of the files directly in a directory those are copied whose names have an ending. Each goes to its
own name in the other directory, so the order makes no difference, and copying them again changes
nothing.
-/
namespace NativeBuild

open FileSystem
open NativeBuild.Path (IsName)

namespace FileSystem.View

/-- A file directly in a directory whose name has an ending. -/
def Matches (ending : Text) (new : View) (file : Text) : Prop :=
  ending.isSuffixOf file = true ∧ new.fileAt [file] = true

instance (ending : Text) (new : View) (file : Text) : Decidable (Matches ending new file) :=
  inferInstanceAs (Decidable (_ ∧ _))

/-- The files of a directory whose names have an ending, laid over another directory. -/
def matching (ending : Text) (new old : View) : View
  | [file] => if Matches ending new file then new [file] else old [file]
  | rel => old rel

/-- No path is too long, and no directory is met by a file. -/
def MatchingFits (target : Path) (ending : Text) (new old : View) : Prop :=
  ∀ file, Matches ending new file →
    (Path.join target file).length < maxPath ∧ old.directoryAt [file] = false

variable {target : Path} {ending : Text} {new old : View}

theorem matching_name (ending : Text) (new old : View) (file : Text) :
    matching ending new old [file] =
      if Matches ending new file then new [file] else old [file] := rfl

theorem matching_of_ne {rel : Location} (h : ∀ file, rel ≠ [file]) :
    matching ending new old rel = old rel := by
  match rel with
  | [] => rfl
  | [file] => exact absurd rfl (h file)
  | _ :: _ :: _ => rfl

theorem matching_matching (ending : Text) (new old : View) :
    matching ending new (matching ending new old) = matching ending new old := by
  funext rel
  by_cases h : ∃ file, rel = [file]
  · obtain ⟨file, rfl⟩ := h
    rw [matching_name, matching_name]
    split <;> rfl
  · exact matching_of_ne fun file heq => h ⟨file, heq⟩

/-- What fits once fits again. -/
theorem MatchingFits.matching (h : MatchingFits target ending new old) :
    MatchingFits target ending new (View.matching ending new old) := by
  intro file hfile
  refine ⟨(h file hfile).1, ?_⟩
  unfold directoryAt
  rw [matching_name, if_pos hfile]
  exact not_directory_of_file hfile.2

end FileSystem.View

namespace Staging

/-- Some of the files of a directory have been copied into another one. -/
structure CopiedFiles (s after : Session) (a b : Location) (target : Path) (ending : Text)
    (names : List Text) : Prop where
  plain : after.files.Plain
  here : after.files.here = s.files.here
  fits : ∀ file ∈ names, View.Matches ending (s.files.view a) file →
    (Path.join target file).length < maxPath ∧ s.files.directoryAt (b ++ [file]) = false
  inside : ∀ file, after.files.get? (b ++ [file]) =
    if file ∈ names ∧ View.Matches ending (s.files.view a) file then s.files.get? (a ++ [file])
    else s.files.get? (b ++ [file])
  outside : ∀ l, (∀ file, l ≠ b ++ [file]) → after.files.get? l = s.files.get? l

/-- A file is copied if its name has an ending. -/
def copyIfMatching (source target : Path) (ending : Text) (file : Text) : Job Unit :=
  if ending.isSuffixOf file then
    attempt "copy failed" (Path.join source file)
      (FileAction.copyFile (Path.join source file) (Path.join target file) true)
  else return ()

section CopiedFiles

variable {s between after : Session} {a b : Location} {target : Path} {ending : Text}
  {names : List Text} {file : Text}

/-- Nothing is copied if no name has the ending. -/
theorem CopiedFiles.refl (h : s.files.Plain)
    (hnone : ∀ file ∈ names, ¬ View.Matches ending (s.files.view a) file) :
    CopiedFiles s s a b target ending names where
  plain := h
  here := rfl
  fits file hfile hmatches := absurd hmatches (hnone file hfile)
  inside file := by rw [if_neg fun hboth => hnone file hboth.1 hboth.2]
  outside _ _ := rfl

/-- Directories stay when files are copied. -/
theorem CopiedFiles.directoryAt {l : Location} (h : CopiedFiles s after a b target ending names)
    (hl : s.files.directoryAt l = true) : after.files.directoryAt l = true := by
  have hsame : after.files.get? l = s.files.get? l := by
    by_cases hname : ∃ file, l = b ++ [file]
    · obtain ⟨file, rfl⟩ := hname
      rw [h.inside file, if_neg]
      rintro ⟨hmem, hmatches⟩
      rw [(h.fits file hmem hmatches).2] at hl
      cases hl
    · exact h.outside l fun file heq => hname ⟨file, heq⟩
  unfold FileSystem.directoryAt
  rwa [hsame]

/-- What is copied from stays. -/
theorem CopiedFiles.view_eq (hapart : Apart a b) (h : CopiedFiles s after a b target ending names) :
    after.files.view a = s.files.view a :=
  view_congr fun l hl => h.outside l fun file heq =>
    hapart.not_both hl (heq ▸ List.prefix_append b [file])

/-- Some files more. -/
theorem CopiedFiles.append {more : List Text} (hapart : Apart a b)
    (h : CopiedFiles s between a b target ending names)
    (h' : CopiedFiles between after a b target ending more) :
    CopiedFiles s after a b target ending (names ++ more) := by
  have hsource := h.view_eq hapart
  refine ⟨h'.plain, h'.here.trans h.here, fun file hfile hmatches => ?_, fun file => ?_,
    fun l hl => (h'.outside l hl).trans (h.outside l hl)⟩
  · by_cases hmem : file ∈ names
    · exact h.fits file hmem hmatches
    · obtain ⟨hshort, hfree⟩ := h'.fits file ((List.mem_append.mp hfile).resolve_left hmem)
        (hsource ▸ hmatches)
      refine ⟨hshort, ?_⟩
      unfold FileSystem.directoryAt at hfree ⊢
      rwa [h.inside file, if_neg fun hboth => hmem hboth.1] at hfree
  · have hfrom : between.files.get? (a ++ [file]) = s.files.get? (a ++ [file]) :=
      congrFun hsource [file]
    rw [h'.inside file, hsource, hfrom, h.inside file]
    by_cases hmatches : View.Matches ending (s.files.view a) file
    · simp only [hmatches, and_true, List.mem_append]
      by_cases hmem : file ∈ more
      · rw [if_pos hmem, if_pos (.inr hmem)]
      · simp only [hmem, if_false, or_false]
    · simp only [hmatches, and_false, if_false]

/-- A file that matches is listed. -/
theorem mem_names_of_matches {fs : FileSystem} (h : View.Matches ending (fs.view a) file) :
    file ∈ fs.names a := by
  obtain ⟨entry, hget⟩ := Option.isSome_iff_exists.mp (Option.isSome_of_any h.2)
  exact mem_names_iff.mpr ⟨entry, hget⟩

/-- When every file that matches is among the names, the matching files lie over what was there. -/
theorem CopiedFiles.view_target (h : CopiedFiles s after a b target ending names)
    (hall : ∀ file, View.Matches ending (s.files.view a) file → file ∈ names) :
    after.files.view b = View.matching ending (s.files.view a) (s.files.view b) := by
  funext rel
  by_cases hrel : ∃ file, rel = [file]
  · obtain ⟨file, rfl⟩ := hrel
    rw [View.matching_name]
    refine (h.inside file).trans ?_
    by_cases hmatches : View.Matches ending (s.files.view a) file
    · rw [if_pos ⟨hall file hmatches, hmatches⟩, if_pos hmatches]
      rfl
    · rw [if_neg fun hboth => hmatches hboth.2, if_neg hmatches]
      rfl
  · rw [View.matching_of_ne fun file heq => hrel ⟨file, heq⟩]
    exact h.outside _ fun file heq => hrel ⟨file, List.append_cancel_left heq⟩

/-- A name that no directory has gets none. -/
theorem CopiedFiles.not_directoryAt (h : CopiedFiles s after a b target ending names)
    (hfree : s.files.directoryAt (b ++ [file]) = false) :
    after.files.directoryAt (b ++ [file]) = false := by
  unfold FileSystem.directoryAt at hfree ⊢
  rw [h.inside file]
  split
  · next hboth => exact not_directory_of_file hboth.2.2
  · exact hfree

end CopiedFiles

variable {s after : Session} {source target : Path} {ending : Text} {file : Text}

section

variable (h : s.files.Plain) (hsource : s.files.Reaches source) (htarget : s.files.Reaches target)
    (hapart : Apart (Path.location s.files.here source) (Path.location s.files.here target))
include h hsource htarget hapart

variable (ending) in
/-- A file that is copied if its name has an ending. -/
theorem run_copyIfMatching (hfile : IsName file) {l : Location} {mode : Nat} {content : Text}
    (hstatus : s.files.status (Path.join source file) = .ok (l, .file mode content)) :
    ∃ result after, ((copyIfMatching source target ending file).run s).run = (result, after) ∧
      (result = .ok () ↔ (ending.isSuffixOf file = true →
        (Path.join target file).length < maxPath ∧
          s.files.directoryAt (Path.location s.files.here target ++ [file]) = false)) ∧
      (result = .ok () → CopiedFiles s after (Path.location s.files.here source)
        (Path.location s.files.here target) target ending [file]) := by
  obtain ⟨-, -, rfl, hget⟩ := h.of_status_join hsource.zero hfile hstatus
  have hmatches : View.Matches ending (s.files.view (Path.location s.files.here source)) file ↔
      ending.isSuffixOf file = true := by
    unfold View.Matches View.fileAt view
    simp [hget, Entry.isFile]
  unfold copyIfMatching
  cases hending : ending.isSuffixOf file with
  | false =>
    refine ⟨_, _, rfl, by simp, fun _ => .refl h fun other hother hmatch => ?_⟩
    rw [List.mem_singleton.mp hother, hmatches, hending] at hmatch
    cases hmatch
  | true =>
    obtain ⟨result, files, hcopy, hok, hputs⟩ := FileAction.run_copyFile_join h htarget hfile hstatus
      fun heq => hapart.not_both (List.prefix_append _ [file]) (heq ▸ List.prefix_append _ [file])
    rw [if_pos rfl, run_attempt, hcopy]
    cases result with
    | error e => exact ⟨_, _, rfl, by simpa using hok, by simp⟩
    | ok =>
      refine ⟨_, _, rfl, by simpa using hok, fun _ => ?_⟩
      obtain ⟨hplain, hhere, hinside, houtside⟩ := hputs rfl
      refine ⟨hplain, hhere, fun other hother _ => ?_, fun other => ?_, fun l hl => houtside l (hl file)⟩
      · rw [List.mem_singleton.mp hother]
        exact hok.mp rfl
      · by_cases heq : other = file
        · subst heq
          rw [if_pos ⟨by simp, hmatches.mpr hending⟩, hget]
          exact hinside
        · rw [if_neg (by simp [heq])]
          exact houtside _ (by simpa using heq)

theorem copiedFiles_of_visit {names : List Text}
    (hnames : ∀ file ∈ names, IsName file ∧ (Path.join source file).length < maxPath ∧
      ∃ entry, s.files.get? (Path.location s.files.here source ++ [file]) = some entry)
    {left left' : Option FileError}
    (hrun : ((visit source (copyIfMatching source target ending) left names).run s).run =
      (.ok left', after)) :
    CopiedFiles s after (Path.location s.files.here source) (Path.location s.files.here target)
      target ending names := by
  induction names generalizing s left with
  | nil =>
    obtain rfl : s = after := congrArg Prod.snd hrun
    exact ⟨h, rfl, by simp, by simp, fun _ _ => rfl⟩
  | cons file rest ih =>
    obtain ⟨⟨hfile, hshort, entry, hget⟩, hrest⟩ := List.forall_mem_cons.mp hnames
    have hstatus := h.status_join hsource hfile
    rw [if_neg (Nat.not_le.mpr hshort), hget] at hstatus
    have hlater : ∀ {between : Session} {left : Option FileError},
        CopiedFiles s between (Path.location s.files.here source) (Path.location s.files.here target)
          target ending [file] →
        ((visit source (copyIfMatching source target ending) left rest).run between).run =
          (.ok left', after) →
        CopiedFiles s after (Path.location s.files.here source) (Path.location s.files.here target)
          target ending (file :: rest) := by
      intro between left hfirst hrun
      have hcopied := ih hfirst.plain (hsource.mono hfirst.here fun l _ => hfirst.directoryAt)
        (htarget.mono hfirst.here fun l _ => hfirst.directoryAt) (hfirst.here ▸ hapart)
        (fun other hother => ?_) hrun
      · rw [hfirst.here] at hcopied
        exact hfirst.append hapart hcopied
      · obtain ⟨hname, hlength, entry, hget⟩ := hrest other hother
        refine ⟨hname, hlength, entry, ?_⟩
        rw [hfirst.here]
        exact (congrFun (hfirst.view_eq hapart) [other]).trans hget
    unfold visit at hrun
    rw [run_get_bind, hstatus] at hrun
    cases entry with
    | link target => exact absurd hget (h.links _ target)
    | directory mode =>
      refine hlater (.refl h fun other hother hmatches => ?_) hrun
      have hfileAt := hmatches.2
      unfold View.fileAt view at hfileAt
      rw [List.mem_singleton.mp hother, hget] at hfileAt
      cases hfileAt
    | file mode content =>
      obtain ⟨⟨⟩, between, hcopy, hrun⟩ := of_run_bind hrun
      obtain ⟨result, between', hcopy', -, hcopied⟩ :=
        run_copyIfMatching ending h hsource htarget hapart hfile hstatus
      obtain ⟨rfl, rfl⟩ := Prod.mk.inj (hcopy'.symm.trans hcopy)
      exact hlater (hcopied rfl) hrun

end

section

variable {between : Session} {done : List Text} (h : s.files.Plain)
  (hcopied : CopiedFiles s between (Path.location s.files.here source)
    (Path.location s.files.here target) target ending done)
  (hsource : s.files.Reaches source) (htarget : s.files.Reaches target)
  (hapart : Apart (Path.location s.files.here source) (Path.location s.files.here target))
include h hcopied hsource hapart

/-- What was found in the directory is found there while its files are copied. -/
theorem CopiedFiles.status {entry : Entry}
    (hget : s.files.get? (Path.location s.files.here source ++ [file]) = some entry)
    (hshort : (Path.join source file).length < maxPath) :
    ∃ found, between.files.status (Path.join source file) = .ok found := by
  have hget' := (congrFun (hcopied.view_eq hapart) [file]).trans hget
  have hstatus := hcopied.plain.status_join
    (hsource.mono hcopied.here fun l _ => hcopied.directoryAt)
    (h.isName_of_mem_names (mem_names_iff.mpr ⟨entry, hget⟩))
  unfold view at hget'
  rw [if_neg (Nat.not_le.mpr hshort), hcopied.here, hget'] at hstatus
  exact ⟨_, hstatus⟩

omit h
include htarget

/-- If the files fit, the next one is copied. -/
theorem CopiedFiles.copy
    (hfits : View.MatchingFits target ending
      (s.files.view (Path.location s.files.here source))
      (s.files.view (Path.location s.files.here target)))
    (hfile : IsName file) {l : Location} {mode : Nat} {content : Text}
    (hstatus : between.files.status (Path.join source file) = .ok (l, .file mode content)) :
    ∃ after, ((copyIfMatching source target ending file).run between).run = (.ok (), after) ∧
      CopiedFiles s after (Path.location s.files.here source) (Path.location s.files.here target)
        target ending (done ++ [file]) := by
  have hfrom := hsource.mono hcopied.here fun l _ => hcopied.directoryAt
  have hto := htarget.mono hcopied.here fun l _ => hcopied.directoryAt
  obtain ⟨result, after, hrun, hok, hmore⟩ := run_copyIfMatching ending hcopied.plain hfrom hto
    (hcopied.here ▸ hapart) hfile hstatus
  rw [hcopied.here] at hok hmore
  obtain rfl : result = .ok () := by
    refine hok.mpr fun hending => ?_
    have hisFile : (s.files.view (Path.location s.files.here source)).fileAt [file] = true := by
      obtain ⟨-, -, -, hget⟩ := hcopied.plain.of_status_join hfrom.zero hfile hstatus
      rw [hcopied.here] at hget
      rw [← hcopied.view_eq hapart, View.fileAt, view, hget]
      rfl
    obtain ⟨hlength, hfree⟩ := hfits file ⟨hending, hisFile⟩
    exact ⟨hlength, hcopied.not_directoryAt hfree⟩
  exact ⟨after, hrun, hcopied.append hapart (hmore rfl)⟩

end

/-- When the target of a copy has been made, both directories can be entered. -/
theorem entered_of_makes {fs files : FileSystem} {p q : Path} {name other : Text} (h : fs.Plain)
    (hzero : 0 ∉ p) (hzero' : 0 ∉ q) (hname : IsName name) (hother : IsName other)
    (hsource : fs.isDirectory (Path.join p name) = true)
    (hmakes : Makes fs files (Path.join q other)) :
    files.Reaches (Path.join p name) ∧ files.Reaches (Path.join q other) ∧
      files.list (Path.join p name) = .ok (files.names (Path.location files.here (Path.join p name))) := by
  obtain ⟨hp, hshort, hdirectory⟩ := (h.isDirectory_join_iff hzero hname).mp hsource
  obtain ⟨hq, -, hdirectory'⟩ :=
    (hmakes.plain.isDirectory_join_iff hzero' hother).mp hmakes.directory
  have hp' := hp.mono hmakes.here fun l _ => hmakes.directoryAt
  have hthere : files.directoryAt (Path.location files.here p ++ [name]) = true := by
    rw [hmakes.here]
    exact hmakes.directoryAt hdirectory
  refine ⟨(reaches_join hname).mpr ⟨hp', hthere⟩, (reaches_join hother).mpr ⟨hq, hdirectory'⟩, ?_⟩
  rw [Path.location_join hname]
  exact hmakes.plain.list_join hp' hname hshort hthere

section CopyMatching

variable {p q : Path} {name other : Text} (h : s.files.Plain) (hzero : 0 ∉ p) (hzero' : 0 ∉ q)
  (hname : IsName name) (hother : IsName other)
  (hapart : Apart (Path.location s.files.here p ++ [name]) (Path.location s.files.here q ++ [other]))
  (hshort : ∀ file, s.files.get? (Path.location s.files.here p ++ [name] ++ [file]) ≠ none →
    (Path.join (Path.join p name) file).length < maxPath)
include h hzero hzero' hname hother hapart hshort

/-- A copy makes its target and then copies the files that are listed. -/
theorem of_copyMatching
    (hback : ∀ l ∈ Path.left s.files.here q, s.files.directoryAt l = true)
    (hrun : ((copyMatching (Path.join p name) (Path.join q other) ending).run s).run =
      (.ok (), after)) :
    ∃ files, Makes s.files files (Path.join q other) ∧
      CopiedFiles { s with files } after (Path.location s.files.here p ++ [name])
        (Path.location s.files.here q ++ [other]) (Path.join q other) ending
        (files.names (Path.location s.files.here p ++ [name])) := by
  unfold copyMatching at hrun
  rw [run_get_bind] at hrun
  split at hrun
  swap
  · cases congrArg Prod.fst hrun
  next hsource =>
  obtain ⟨⟨⟩, made, hmake, hrun⟩ := of_run_bind hrun
  obtain ⟨files, hmakes, rfl⟩ := makes_of_ensureDirectory h hzero' hother hback hmake
  obtain ⟨hfrom, hto, hlist⟩ := entered_of_makes h hzero hzero' hname hother hsource hmakes
  obtain ⟨names, listed, hask, hrun⟩ := of_run_bind hrun
  obtain ⟨files', hask', rfl⟩ := of_run_attempt hask
  obtain ⟨hnames, rfl⟩ := FileAction.of_run_ask hask'
  obtain rfl := Except.ok.inj (hlist.symm.trans hnames)
  obtain ⟨left, copied, hvisit, hend⟩ := of_run_bind hrun
  obtain rfl : copied = after := by
    cases left with
    | none => exact congrArg Prod.snd hend
    | some e => cases congrArg Prod.fst hend
  have hlocation : Path.location files.here (Path.join p name) =
      Path.location s.files.here p ++ [name] := by rw [hmakes.here, Path.location_join hname]
  have hlocation' : Path.location files.here (Path.join q other) =
      Path.location s.files.here q ++ [other] := by rw [hmakes.here, Path.location_join hother]
  have hplain : ({ s with files } : Session).files.Plain := hmakes.plain
  have hcopied := copiedFiles_of_visit hplain hfrom hto ?_ ?_ hvisit
  · simp only [hlocation, hlocation'] at hcopied
    exact ⟨files, hmakes, hcopied⟩
  · rw [hlocation, hlocation']
    exact hapart
  · intro file hfile
    obtain ⟨entry, hget⟩ := mem_names_iff.mp hfile
    refine ⟨hmakes.plain.isName_of_mem_names hfile, hshort file fun hnone => ?_, entry, hget⟩
    rw [hlocation] at hget
    have hview := hmakes.view_eq_of_apart (by rw [Path.location_join hother]; exact hapart.symm)
    cases hnone.symm.trans ((congrFun hview [file]).symm.trans hget)

/-- The files whose names have an ending lie over what was there. -/
theorem lays_of_copyMatching
    (hback : ∀ l ∈ Path.left s.files.here q, s.files.directoryAt l = true)
    (hrun : ((copyMatching (Path.join p name) (Path.join q other) ending).run s).run =
      (.ok (), after)) :
    View.MatchingFits (Path.join q other) ending
      (s.files.view (Path.location s.files.here p ++ [name]))
      (s.files.view (Path.location s.files.here q ++ [other])).entered ∧
    s.Lays after (Path.join q other) (Path.location s.files.here q ++ [other])
      (View.matching ending (s.files.view (Path.location s.files.here p ++ [name]))
        (s.files.view (Path.location s.files.here q ++ [other])).entered) := by
  have htarget := (Path.leads s.files.here hzero').join hother
  have hkeeps := @preserves_copyMatching _ (Path.join p name) _ _ _ htarget
    (fun file _ => ((Policy.freeBelow_rebuilding s.files s.logPlaces _).name file).free.mayWrite)
    (Policy.mayReach_rebuilding s.logPlaces _ hback) ending s
    ⟨⟨h, rfl, fun _ _ => .same rfl⟩, rfl⟩
  obtain ⟨files, hmakes, hcopied⟩ :=
    of_copyMatching h hzero hzero' hname hother hapart hshort hback hrun
  have hview : files.view (Path.location s.files.here p ++ [name]) =
      s.files.view (Path.location s.files.here p ++ [name]) :=
    hmakes.view_eq_of_apart (by rw [Path.location_join hother]; exact hapart.symm)
  have hkept : ∀ l, files.directoryAt l = true → after.files.directoryAt l = true :=
    fun l => hcopied.directoryAt
  rw [← hmakes.view_eq hzero' hother, ← hview]
  refine ⟨fun file hmatches => hcopied.fits file (mem_names_of_matches hmatches) hmatches,
    ⟨hkeeps.of_run hrun, hcopied.view_target fun file => mem_names_of_matches⟩, ?_,
    fun l hl => hkept l (hmakes.directoryAt hl)⟩
  exact hmakes.plain.isDirectory_mono hcopied.plain hzero' hother hcopied.here
    (fun l _ => hkept l) hmakes.directory

/-- The files are copied if they fit to a directory that is there. -/
theorem copyMatching_succeeds (hsource : s.files.isDirectory (Path.join p name) = true)
    (htarget : s.files.isDirectory (Path.join q other) = true)
    (hfits : View.MatchingFits (Path.join q other) ending
      (s.files.view (Path.location s.files.here p ++ [name]))
      (s.files.view (Path.location s.files.here q ++ [other]))) :
    ∃ after,
      ((copyMatching (Path.join p name) (Path.join q other) ending).run s).run = (.ok (), after) := by
  obtain ⟨hp, hlength, hdirectory⟩ := (h.isDirectory_join_iff hzero hname).mp hsource
  obtain ⟨hq, -, hdirectory'⟩ := (h.isDirectory_join_iff hzero' hother).mp htarget
  have hfrom := (reaches_join hname).mpr ⟨hp, hdirectory⟩
  have hto := (reaches_join hother).mpr ⟨hq, hdirectory'⟩
  rw [← Path.location_join hname, ← Path.location_join hother] at hapart hfits
  rw [← Path.location_join hname] at hshort
  -- Between two files, those that have been visited are copied.
  let I : Session → Prop := fun between => ∃ done, CopiedFiles s between
    (Path.location s.files.here (Path.join p name))
    (Path.location s.files.here (Path.join q other)) (Path.join q other) ending done
  have hfound : ∀ file ∈ s.files.names (Path.location s.files.here p ++ [name]), ∀ between,
      I between → ∃ found, between.files.status (Path.join (Path.join p name) file) = .ok found := by
    rintro file hfile between ⟨done, hcopied⟩
    obtain ⟨entry, hget⟩ := mem_names_iff.mp hfile
    rw [← Path.location_join hname] at hget
    exact hcopied.status h hfrom hapart hget (hshort file (by rw [hget]; nofun))
  have hcopy : ∀ file ∈ s.files.names (Path.location s.files.here p ++ [name]),
      ∀ between l mode content, I between →
      between.files.status (Path.join (Path.join p name) file) = .ok (l, .file mode content) →
      ∃ after, ((copyIfMatching (Path.join p name) (Path.join q other) ending file).run between).run =
        (.ok (), after) ∧ I after := by
    rintro file hfile between l mode content ⟨done, hcopied⟩ hstatus
    obtain ⟨after, hrun, hmore⟩ :=
      hcopied.copy hfrom hto hapart hfits (h.isName_of_mem_names hfile) hstatus
    exact ⟨after, hrun, _, hmore⟩
  have hmake := FileAction.run_makeDirectories_of_isDirectory hother htarget
  obtain ⟨after, hrun, -⟩ := forFiles_succeeds (h.list_join hp hname hlength hdirectory) hfound hcopy
    (⟨[], .refl h (by simp)⟩ : I s)
  refine ⟨after, ?_⟩
  unfold copyMatching
  rw [run_get_bind, if_pos hsource, run_bind]
  unfold ensureDirectory
  rw [run_attempt, hmake]
  exact hrun

end CopyMatching

end Staging

end NativeBuild
