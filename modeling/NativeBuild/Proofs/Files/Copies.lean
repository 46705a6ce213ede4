import NativeBuild.Proofs.Files.Operations
import NativeBuild.Proofs.Files.Overlay

/-!
# Copying trees

A copy of a tree lays it over what is at the target, and changes nothing outside of it. It succeeds
exactly if the tree fits. The induction is on the fuel: below a directory the names are copied one
after the other, each of them into a part of the target that no other one touches.
-/
namespace NativeBuild

open FileSystem
open NativeBuild.Path (IsName)

namespace FileSystem

/-- Neither location lies inside the other one. -/
def Apart (a b : Location) : Prop := ¬ a <+: b ∧ ¬ b <+: a

instance (a b : Location) : Decidable (Apart a b) := inferInstanceAs (Decidable (_ ∧ _))

theorem Apart.symm {a b : Location} (h : Apart a b) : Apart b a := ⟨h.2, h.1⟩

/-- Nothing lies inside both. -/
theorem Apart.not_both {a b l : Location} (h : Apart a b) (ha : a <+: l) : ¬ b <+: l := fun hb =>
  (List.prefix_or_prefix_of_prefix ha hb).elim h.1 h.2

/-- What lies inside is apart as well. -/
theorem Apart.mono {a b a' b' : Location} (h : Apart a b) (ha : a <+: a') (hb : b <+: b') :
    Apart a' b' :=
  ⟨fun hab => h.not_both (ha.trans hab) hb, fun hba => h.not_both ha (hb.trans hba)⟩

/-- A name in a directory is not on the way to it. -/
theorem not_name_isPrefix (at_ : Location) (name : Text) : ¬ at_ ++ [name] <+: at_ := by
  intro h
  have hlength := h.length_le
  rw [List.length_append, List.length_singleton] at hlength
  omega

/-- Two names of one directory. -/
theorem apart_names (dir : Location) {name other : Text} (h : name ≠ other) :
    Apart (dir ++ [name]) (dir ++ [other]) := by
  have hnot : ∀ a b : Text, a ≠ b → ¬ dir ++ [a] <+: dir ++ [b] := by
    intro a b hne hbelow
    exact hne (List.singleton_inj.mp (List.append_cancel_left (hbelow.eq_of_length (by simp))))
  exact ⟨hnot _ _ h, hnot _ _ h.symm⟩

/-- A tree is put at a location, and nothing else changes. -/
structure Replaces (fs fs' : FileSystem) (at_ : Location) (new : View) : Prop where
  plain : fs'.Plain
  here : fs'.here = fs.here
  inside : fs'.view at_ = new
  outside : ∀ l, ¬ at_ <+: l → fs'.get? l = fs.get? l

variable {fs fs' : FileSystem} {at_ l : Location} {new : View} {source target : Path} {name : Text}

theorem view_under (fs : FileSystem) (at_ : Location) (name : Text) :
    (fs.view at_).under name = fs.view (at_ ++ [name]) := by
  funext rest
  rw [View.under, view, view, List.append_assoc, List.singleton_append]

theorem view_nil (fs : FileSystem) (at_ : Location) : fs.view at_ [] = fs.get? at_ := by
  rw [view, List.append_nil]

theorem view_directoryAt_nil (fs : FileSystem) (at_ : Location) :
    (fs.view at_).directoryAt [] = fs.directoryAt at_ := by
  rw [View.directoryAt, view_nil, FileSystem.directoryAt]

/-- A tree that nothing changes. -/
theorem view_congr (h : ∀ l, at_ <+: l → fs'.get? l = fs.get? l) : fs'.view at_ = fs.view at_ :=
  funext fun rel => h _ (List.prefix_append at_ rel)

theorem Replaces.view_eq_of_apart (h : Replaces fs fs' at_ new) (hl : Apart at_ l) :
    fs'.view l = fs.view l :=
  view_congr fun l' hl' => h.outside l' fun hat => hl.not_both hat hl'

/-- A copy that fits loses no directory. -/
theorem Replaces.directoryAt
    (h : Replaces fs fs' at_ (View.overlay name new (fs.view at_)))
    (hfits : View.Fits source target name new (fs.view at_)) (hl : fs.directoryAt l = true) :
    fs'.directoryAt l = true := by
  unfold FileSystem.directoryAt at hl ⊢
  by_cases hat : at_ <+: l
  · obtain ⟨rel, rfl⟩ := hat
    have hkept := congrFun h.inside rel
    rw [hfits.keeps hl] at hkept
    exact (congrArg (Option.any Entry.isDirectory) hkept).trans hl
  · rw [h.outside l hat]
    exact hl

end FileSystem

namespace FileAction

variable {fs fs' : FileSystem} {p q : Path} {name other : Text} {fuel : Nat}

/-- A file that is put where it goes lies over what was there. -/
theorem Puts.replaces {a b : Location} {entry : Entry} (hfrom : fs.get? a = some entry)
    (hfile : entry.isDirectory = false)
    (h : Puts fs fs' (b ++ View.landing name (fs.view b)) entry) :
    Replaces fs fs' b (View.overlay name (fs.view a) (fs.view b)) where
  plain := h.plain
  here := h.here
  inside := by
    funext rel
    rw [View.overlay_of_file ((view_nil fs a).trans hfrom) hfile]
    split
    · next hrel =>
      rw [hrel]
      exact h.inside
    · next hrel => exact h.outside _ fun heq => hrel (List.append_cancel_left heq)
  outside l hl := h.outside l fun heq => hl (heq ▸ List.prefix_append _ _)

/-- The target of a directory is a directory now: it is made if nothing is there. -/
structure Enters (fs between : FileSystem) (at_ : Location) (mode : Nat) : Prop where
  plain : between.Plain
  here : between.here = fs.here
  root : between.get? at_ = some ((fs.get? at_).getD (.directory (maskedMode mode)))
  outside : ∀ l, l ≠ at_ → between.get? l = fs.get? l

theorem Enters.directoryAt {between : FileSystem} {at_ l : Location} {mode : Nat}
    (h : Enters fs between at_ mode) (hl : fs.directoryAt l = true) :
    between.directoryAt l = true := by
  obtain ⟨mode', hget⟩ := directoryAt_iff.mp hl
  by_cases hat : l = at_
  · subst hat
    exact directoryAt_iff.mpr ⟨mode', by rw [h.root, hget, Option.getD_some]⟩
  · exact directoryAt_iff.mpr ⟨mode', by rw [h.outside l hat, hget]⟩

section Step

variable (h : fs.Plain) (hp : fs.Reaches p) (hq : fs.Reaches q) (hname : IsName name)
  (hother : IsName other)
  (hapart : Apart (Path.location fs.here p ++ [name]) (Path.location fs.here q ++ [other]))
include h hp hq hname hother hapart

/-- The first step of a copy looks at what is at both names. -/
theorem run_copyTree_join (fuel : Nat) :
    ((copyTree true (fuel + 1) (Path.join p name) (Path.join q other)).run fs).run =
      if maxPath ≤ (Path.join p name).length then (.error .nameTooLong, fs)
      else match fs.get? (Path.location fs.here p ++ [name]) with
        | none => (.error .notFound, fs)
        | some entry =>
          if maxPath ≤ (Path.join q other).length then (.error .nameTooLong, fs)
          else match entry, fs.get? (Path.location fs.here q ++ [other]) with
            | .directory _, some (.file _ _) => (.error .isDirectory, fs)
            | .directory _, some _ =>
              ((copyBelow true fuel (Path.join p name) (Path.join q other)).run fs).run
            | .directory mode, none => ((do
                makeDirectory (Path.join q other) mode
                copyBelow true fuel (Path.join p name) (Path.join q other) :
                  FileAction Unit).run fs).run
            | _, some (.directory _) =>
              ((copyFile (Path.join p name) (Path.join (Path.join q other) name) true).run fs).run
            | _, _ => ((copyFile (Path.join p name) (Path.join q other) true).run fs).run := by
  have hne : Path.location fs.here q ++ [other] ≠ Path.location fs.here p ++ [name] :=
    fun heq => hapart.1 (heq ▸ List.prefix_rfl)
  rw [run_copyTree, h.status_join hp hname, lookUp_join h hq hother, Path.fileName_join hname.slash]
  by_cases hlong : maxPath ≤ (Path.join p name).length
  · rw [if_pos hlong, if_pos hlong]
  rw [if_neg hlong, if_neg hlong]
  cases fs.get? (Path.location fs.here p ++ [name]) with
  | none => rfl
  | some entry =>
    dsimp only
    by_cases hlong' : maxPath ≤ (Path.join q other).length
    · rw [if_pos hlong', if_pos hlong']
    rw [if_neg hlong', if_neg hlong']
    dsimp only
    rw [if_neg (by cases fs.get? (Path.location fs.here q ++ [other]) <;> simp [hne])]
    cases fs.get? (Path.location fs.here q ++ [other]) with
    | none => cases entry <;> rfl
    | some old => cases entry <;> cases old <;> rfl

/-- Nothing is copied if a path is too long, or if nothing is there. -/
theorem of_run_copyTree_join
    (hrun : ((copyTree true (fuel + 1) (Path.join p name) (Path.join q other)).run fs).run =
      (.ok (), fs')) : (Path.join p name).length < maxPath ∧ (Path.join q other).length < maxPath ∧
      ∃ entry, fs.get? (Path.location fs.here p ++ [name]) = some entry := by
  rw [run_copyTree_join h hp hq hname hother hapart] at hrun
  by_cases hlong : maxPath ≤ (Path.join p name).length
  · rw [if_pos hlong] at hrun
    cases congrArg Prod.fst hrun
  rw [if_neg hlong] at hrun
  cases hfrom : fs.get? (Path.location fs.here p ++ [name]) with
  | none =>
    rw [hfrom] at hrun
    cases congrArg Prod.fst hrun
  | some entry =>
    rw [hfrom] at hrun
    dsimp only at hrun
    by_cases hlong' : maxPath ≤ (Path.join q other).length
    · rw [if_pos hlong'] at hrun
      cases congrArg Prod.fst hrun
    · exact ⟨Nat.lt_of_not_le hlong, Nat.lt_of_not_le hlong', entry, rfl⟩

variable (hshort : (Path.join p name).length < maxPath)
  (hshort' : (Path.join q other).length < maxPath)
include hshort hshort'

/-- A single file is copied if it fits. -/
theorem run_copyTree_file {mode : Nat} {content : Text} (fuel : Nat)
    (hfrom : fs.get? (Path.location fs.here p ++ [name]) = some (.file mode content)) :
    ∃ result fs',
      ((copyTree true (fuel + 1) (Path.join p name) (Path.join q other)).run fs).run = (result, fs') ∧
      (result = .ok () ↔ View.Fits (Path.join p name) (Path.join q other) name
        (fs.view (Path.location fs.here p ++ [name])) (fs.view (Path.location fs.here q ++ [other]))) ∧
      (result = .ok () → Replaces fs fs' (Path.location fs.here q ++ [other])
        (View.overlay name (fs.view (Path.location fs.here p ++ [name]))
          (fs.view (Path.location fs.here q ++ [other])))) := by
  have hstatus := h.status_join hp hname
  rw [if_neg (Nat.not_le.mpr hshort), hfrom] at hstatus
  rw [run_copyTree_join h hp hq hname hother hapart, if_neg (Nat.not_le.mpr hshort), hfrom]
  dsimp only
  rw [if_neg (Nat.not_le.mpr hshort'), View.fits_of_file ((view_nil _ _).trans hfrom) rfl,
    view_directoryAt_nil]
  cases hto : fs.directoryAt (Path.location fs.here q ++ [other]) with
  | true =>
    obtain ⟨mode', hget⟩ := directoryAt_iff.mp hto
    obtain ⟨result, fs', hrun, hok, hputs⟩ := run_copyFile_join h
      ((reaches_join hother).mpr ⟨hq, hto⟩) hname hstatus (by
        rw [Path.location_join hother]
        exact fun heq => hapart.2 (heq ▸ List.prefix_append _ _))
    rw [Path.location_join hother] at hok hputs
    rw [hget]
    refine ⟨result, fs', hrun, ?_, fun hresult => Puts.replaces hfrom rfl ?_⟩
    · rw [hok]
      simp only [hshort, hshort', true_and, forall_const]
      rfl
    · rw [View.landing, view_directoryAt_nil, if_pos hto]
      exact hputs hresult
  | false =>
    obtain ⟨result, fs', hrun, hok, hputs⟩ := run_copyFile_join h hq hother hstatus
      fun heq => hapart.1 (heq ▸ List.prefix_rfl)
    refine ⟨result, fs', ?_, by simp [hok, hshort, hshort', hto],
      fun hresult => Puts.replaces hfrom rfl ?_⟩
    · cases hget : fs.get? (Path.location fs.here q ++ [other]) with
      | none => exact hrun
      | some old =>
        cases old with
        | directory =>
          unfold directoryAt at hto
          rw [hget] at hto
          cases hto
        | _ => exact hrun
    · rw [View.landing, view_directoryAt_nil, if_neg (by simp [hto]), List.append_nil]
      exact hputs hresult

/-- A directory is copied name by name, once there is a directory at the target. -/
theorem run_copyTree_directory {mode : Nat} (fuel : Nat)
    (hfrom : fs.get? (Path.location fs.here p ++ [name]) = some (.directory mode)) :
    if (fs.view (Path.location fs.here q ++ [other])).fileAt [] then
      ((copyTree true (fuel + 1) (Path.join p name) (Path.join q other)).run fs).run =
        (.error .isDirectory, fs)
    else ∃ between, Enters fs between (Path.location fs.here q ++ [other]) mode ∧
      between.Reaches (Path.join p name) ∧ between.Reaches (Path.join q other) ∧
      ((copyTree true (fuel + 1) (Path.join p name) (Path.join q other)).run fs).run =
        ((copyBelow true fuel (Path.join p name) (Path.join q other)).run between).run := by
  rw [run_copyTree_join h hp hq hname hother hapart, if_neg (Nat.not_le.mpr hshort), hfrom]
  dsimp only
  rw [if_neg (Nat.not_le.mpr hshort'), View.fileAt, view_nil]
  have hreaches : ∀ {between}, Enters fs between (Path.location fs.here q ++ [other]) mode →
      between.directoryAt (Path.location fs.here q ++ [other]) = true →
      between.Reaches (Path.join p name) ∧ between.Reaches (Path.join q other) := by
    intro between henters hroot
    have hkeep : ∀ l, fs.directoryAt l = true → between.directoryAt l = true :=
      fun l => henters.directoryAt
    refine ⟨(reaches_join hname).mpr ⟨hp.mono henters.here fun l _ => hkeep l, ?_⟩,
      (reaches_join hother).mpr ⟨hq.mono henters.here fun l _ => hkeep l, ?_⟩⟩
    · rw [henters.here]
      exact hkeep _ (directoryAt_iff.mpr ⟨mode, hfrom⟩)
    · rwa [henters.here]
  cases hto : fs.get? (Path.location fs.here q ++ [other]) with
  | none =>
    have hputs := h.puts (isName_of_short h hq hother hshort')
      (show ∀ target, Entry.directory (maskedMode mode) ≠ .link target by simp)
    have henters : Enters fs _ (Path.location fs.here q ++ [other]) mode :=
      ⟨hputs.plain, hputs.here, by rw [hto]; exact hputs.inside, hputs.outside⟩
    obtain ⟨hfromReaches, htoReaches⟩ :=
      hreaches henters (directoryAt_iff.mpr ⟨_, hputs.inside⟩)
    refine ⟨_, henters, hfromReaches, htoReaches, ?_⟩
    dsimp only
    rw [run_bind, run_makeDirectory h hq hother, if_neg (Nat.not_le.mpr hshort'), hto]
    rfl
  | some old =>
    cases old with
    | link target => exact absurd hto (h.links _ target)
    | file => rfl
    | directory mode' =>
      have henters : Enters fs fs (Path.location fs.here q ++ [other]) mode :=
        ⟨h, rfl, by rw [hto, Option.getD_some], fun _ _ => rfl⟩
      obtain ⟨hfromReaches, htoReaches⟩ := hreaches henters (directoryAt_iff.mpr ⟨_, hto⟩)
      exact ⟨fs, henters, hfromReaches, htoReaches, rfl⟩

end Step

/-- Some names of a directory have been copied into another one. -/
structure CopiedNames (fs fs' : FileSystem) (source target : Path) (names : List Text) : Prop where
  plain : fs'.Plain
  here : fs'.here = fs.here
  fits : ∀ name ∈ names, View.Fits (Path.join source name) (Path.join target name) name
    (fs.view (Path.location fs.here source ++ [name]))
    (fs.view (Path.location fs.here target ++ [name]))
  inside : ∀ name, fs'.view (Path.location fs.here target ++ [name]) =
    if name ∈ names then View.overlay name (fs.view (Path.location fs.here source ++ [name]))
      (fs.view (Path.location fs.here target ++ [name]))
    else fs.view (Path.location fs.here target ++ [name])
  outside : ∀ l, (∀ name, ¬ Path.location fs.here target ++ [name] <+: l) →
    fs'.get? l = fs.get? l

/-- What a copy of a tree does if it succeeds. -/
def CopiesRight (fuel : Nat) : Prop :=
  ∀ (fs fs' : FileSystem) (p q : Path) (name other : Text), fs.Plain → fs.Reaches p → fs.Reaches q →
    IsName name → IsName other →
    Apart (Path.location fs.here p ++ [name]) (Path.location fs.here q ++ [other]) →
    ((copyTree true fuel (Path.join p name) (Path.join q other)).run fs).run = (.ok (), fs') →
    View.Fits (Path.join p name) (Path.join q other) name
      (fs.view (Path.location fs.here p ++ [name])) (fs.view (Path.location fs.here q ++ [other])) ∧
    Replaces fs fs' (Path.location fs.here q ++ [other])
      (View.overlay name (fs.view (Path.location fs.here p ++ [name]))
        (fs.view (Path.location fs.here q ++ [other])))

/-- Names that are copied one after the other. A name that comes twice is copied twice, and the
second copy changes nothing. -/
theorem CopiesRight.names {source target : Path} (hright : CopiesRight fuel) (h : fs.Plain)
    (hsource : fs.Reaches source) (htarget : fs.Reaches target)
    (hapart : Apart (Path.location fs.here source) (Path.location fs.here target)) {names : List Text}
    (hnames : ∀ name ∈ names, IsName name)
    (hrun : ((names.forM fun name => copyTree true fuel (Path.join source name)
      (Path.join target name)).run fs).run = (.ok (), fs')) :
    CopiedNames fs fs' source target names := by
  induction names generalizing fs with
  | nil =>
    obtain rfl : fs = fs' := congrArg Prod.snd hrun
    exact ⟨h, rfl, by simp, by simp, fun _ _ => rfl⟩
  | cons name rest ih =>
    obtain ⟨hname, hrest⟩ := List.forall_mem_cons.mp hnames
    obtain ⟨⟨⟩, between, hfirst, hlater⟩ := of_run_bind hrun
    have hparts := hapart.mono (List.prefix_append _ [name]) (List.prefix_append _ [name])
    obtain ⟨hfits, hreplaces⟩ :=
      hright fs between source target name name h hsource htarget hname hname hparts hfirst
    have hkeep : ∀ l, fs.directoryAt l = true → between.directoryAt l = true :=
      fun l => hreplaces.directoryAt hfits
    have hcopied := ih hreplaces.plain (hsource.mono hreplaces.here fun l _ => hkeep l)
      (htarget.mono hreplaces.here fun l _ => hkeep l) (hreplaces.here ▸ hapart) hrest hlater
    -- What the first copy leaves for the later ones.
    have hfrom : ∀ next, between.view (Path.location fs.here source ++ [next]) =
        fs.view (Path.location fs.here source ++ [next]) := fun next =>
      hreplaces.view_eq_of_apart
        (hapart.mono (List.prefix_append _ [next]) (List.prefix_append _ [name])).symm
    have hto : ∀ next, next ≠ name → between.view (Path.location fs.here target ++ [next]) =
        fs.view (Path.location fs.here target ++ [next]) := fun next hne =>
      hreplaces.view_eq_of_apart (apart_names _ hne.symm)
    refine ⟨hcopied.plain, hcopied.here.trans hreplaces.here, fun next hnext => ?_, fun next => ?_,
      fun l hl => ?_⟩
    · by_cases heq : next = name
      · subst heq
        exact hfits
      · have hlaterFits := hcopied.fits next ((List.mem_cons.mp hnext).resolve_left heq)
        rwa [hreplaces.here, hfrom, hto next heq] at hlaterFits
    · have hview := hcopied.inside next
      rw [hreplaces.here, hfrom] at hview
      by_cases heq : next = name
      · subst heq
        rw [hreplaces.inside, View.overlay_overlay, ite_self] at hview
        rw [hview, if_pos (List.mem_cons_self ..)]
      · rw [hview, hto next heq]
        simp [heq]
    · rw [hcopied.outside l (hreplaces.here ▸ hl), hreplaces.outside l (hl name)]

/-- All names of a directory are copied. -/
theorem CopiesRight.below {source target : Path} (hright : CopiesRight fuel) (h : fs.Plain)
    (hsource : fs.Reaches source) (htarget : fs.Reaches target)
    (hapart : Apart (Path.location fs.here source) (Path.location fs.here target))
    (hrun : ((copyBelow true fuel source target).run fs).run = (.ok (), fs')) :
    CopiedNames fs fs' source target (fs.names (Path.location fs.here source)) := by
  obtain ⟨names, between, hask, hloop⟩ := of_run_bind hrun
  obtain ⟨hlist, rfl⟩ := of_run_ask hask
  obtain ⟨l, mode, hstatus, rfl⟩ := of_list hlist
  obtain ⟨rfl, -, -⟩ := h.of_status hsource.zero hstatus
  exact hright.names h hsource htarget hapart (fun name hname => h.isName_of_mem_names hname) hloop

/-- So it makes no difference which names there are. -/
theorem CopiedNames.all {source target : Path}
    (h : CopiedNames fs fs' source target (fs.names (Path.location fs.here source))) (name : Text) :
    View.Fits (Path.join source name) (Path.join target name) name
      (fs.view (Path.location fs.here source ++ [name]))
      (fs.view (Path.location fs.here target ++ [name])) ∧
    fs'.view (Path.location fs.here target ++ [name]) =
      View.overlay name (fs.view (Path.location fs.here source ++ [name]))
        (fs.view (Path.location fs.here target ++ [name])) := by
  by_cases hname : name ∈ fs.names (Path.location fs.here source)
  · exact ⟨h.fits name hname, (h.inside name).trans (if_pos hname)⟩
  · have hnone : fs.view (Path.location fs.here source ++ [name]) [] = none := by
      rw [view_nil]
      by_contra hsome
      obtain ⟨entry, hget⟩ := Option.ne_none_iff_exists'.mp hsome
      exact hname (mem_names_iff.mpr ⟨entry, hget⟩)
    exact ⟨View.fits_of_none hnone,
      (h.inside name).trans ((if_neg hname).trans (View.overlay_of_none hnone).symm)⟩

section Enters

variable {between : FileSystem} {source target : Path} {mode : Nat}
  (henters : Enters fs between (Path.location fs.here target) mode)
  (hapart : Apart (Path.location fs.here source) (Path.location fs.here target))
include henters hapart

/-- Below both directories nothing has changed yet. -/
theorem Enters.view_eq (next : Text) :
    between.view (Path.location fs.here source ++ [next]) =
      fs.view (Path.location fs.here source ++ [next]) ∧
    between.view (Path.location fs.here target ++ [next]) =
      fs.view (Path.location fs.here target ++ [next]) :=
  ⟨view_congr fun l hl => henters.outside l fun heq =>
      hapart.1 ((List.prefix_append _ _).trans (heq ▸ hl)),
    view_congr fun l hl => henters.outside l fun heq => not_name_isPrefix _ next (heq ▸ hl)⟩

/-- The names have been copied: the directory fits, and lies over what was there. -/
theorem CopiedNames.replaces
    (hcopied : CopiedNames between fs' source target
      (between.names (Path.location between.here source)))
    (hfrom : fs.get? (Path.location fs.here source) = some (.directory mode))
    (hshort : source.length < maxPath) (hshort' : target.length < maxPath)
    (hfile : (fs.view (Path.location fs.here target)).fileAt [] = false) :
    View.Fits source target name (fs.view (Path.location fs.here source))
      (fs.view (Path.location fs.here target)) ∧
    Replaces fs fs' (Path.location fs.here target)
      (View.overlay name (fs.view (Path.location fs.here source))
        (fs.view (Path.location fs.here target))) := by
  have hdirectory : (fs.view (Path.location fs.here source)).directoryAt [] = true := by
    rw [view_directoryAt_nil, directoryAt_iff]
    exact ⟨mode, hfrom⟩
  have hall := hcopied.all
  have houtside := hcopied.outside
  simp only [henters.here, henters.view_eq hapart] at hall houtside
  refine ⟨(View.fits_of_directory hdirectory).mpr ⟨hshort, hshort', hfile, fun next => ?_⟩,
    hcopied.plain, hcopied.here.trans henters.here, ?_, fun l hl => ?_⟩
  · rw [view_under, view_under]
    exact (hall next).1
  · funext rel
    cases rel with
    | nil =>
      rw [view_nil, houtside _ (not_name_isPrefix _), henters.root, View.overlay, view_nil, hfrom,
        view_nil]
    | cons next rest =>
      have hinside := congrFun (hall next).2 rest
      rw [← view_under, ← view_under, ← view_under] at hinside
      exact hinside.trans (congrFun ((View.overlay_of_directory hdirectory name _).2 next) rest).symm
  · rw [houtside _ fun next hnext => hl ((List.prefix_append _ _).trans hnext)]
    exact henters.outside l fun heq => hl (heq ▸ List.prefix_rfl)

end Enters

/-- A tree that has been copied fits, and lies over what was there. -/
theorem copiesRight (fuel : Nat) : CopiesRight fuel := by
  induction fuel with
  | zero =>
    intro fs fs' p q name other _ _ _ _ _ _ hrun
    cases congrArg Prod.fst hrun
  | succ fuel ih =>
    intro fs fs' p q name other h hp hq hname hother hapart hrun
    obtain ⟨hshort, hshort', entry, hfrom⟩ :=
      of_run_copyTree_join h hp hq hname hother hapart hrun
    cases entry with
    | link target => exact absurd hfrom (h.links _ target)
    | file mode content =>
      obtain ⟨result, after, hcopy, hok, hreplaces⟩ :=
        run_copyTree_file h hp hq hname hother hapart hshort hshort' fuel hfrom
      obtain ⟨rfl, rfl⟩ := Prod.mk.inj (hcopy.symm.trans hrun)
      exact ⟨hok.mp rfl, hreplaces rfl⟩
    | directory mode =>
      have hcopy := run_copyTree_directory h hp hq hname hother hapart hshort hshort' fuel hfrom
      cases hfile : (fs.view (Path.location fs.here q ++ [other])).fileAt [] with
      | true =>
        rw [hfile, if_pos rfl, hrun] at hcopy
        cases congrArg Prod.fst hcopy
      | false =>
        rw [hfile, if_neg (by simp)] at hcopy
        obtain ⟨between, henters, hfromReaches, htoReaches, hbelow⟩ := hcopy
        simp only [← Path.location_join hname, ← Path.location_join hother]
          at hapart hfrom hfile henters ⊢
        have hcopied := ih.below henters.plain hfromReaches htoReaches (henters.here ▸ hapart)
          (hbelow.symm.trans hrun)
        exact hcopied.replaces henters hapart hfrom hshort hshort' hfile

/-- What fits is copied. -/
def CopiesAll (fuel : Nat) : Prop :=
  ∀ (fs : FileSystem) (p q : Path) (name other : Text), fs.Plain → fs.Reaches p → fs.Reaches q →
    IsName name → IsName other →
    Apart (Path.location fs.here p ++ [name]) (Path.location fs.here q ++ [other]) →
    (∃ entry, fs.get? (Path.location fs.here p ++ [name]) = some entry) →
    View.Fits (Path.join p name) (Path.join q other) name
      (fs.view (Path.location fs.here p ++ [name])) (fs.view (Path.location fs.here q ++ [other])) →
    maxPath ≤ fuel + (Path.join p name).length →
    ∃ fs', ((copyTree true fuel (Path.join p name) (Path.join q other)).run fs).run = (.ok (), fs')

/-- What fits at first still fits when other names have been copied. -/
theorem CopiesAll.names {source target : Path} (hall : CopiesAll fuel) (h : fs.Plain)
    (hsource : fs.Reaches source) (htarget : fs.Reaches target)
    (hapart : Apart (Path.location fs.here source) (Path.location fs.here target)) {names : List Text}
    (hnames : ∀ name ∈ names, IsName name ∧
      (∃ entry, fs.get? (Path.location fs.here source ++ [name]) = some entry) ∧
      View.Fits (Path.join source name) (Path.join target name) name
        (fs.view (Path.location fs.here source ++ [name]))
        (fs.view (Path.location fs.here target ++ [name])))
    (hfuel : ∀ name, IsName name → maxPath ≤ fuel + (Path.join source name).length) :
    ∃ fs', ((names.forM fun name => copyTree true fuel (Path.join source name)
      (Path.join target name)).run fs).run = (.ok (), fs') := by
  induction names generalizing fs with
  | nil => exact ⟨fs, rfl⟩
  | cons name rest ih =>
    obtain ⟨⟨hname, hthere, hfits⟩, hrest⟩ := List.forall_mem_cons.mp hnames
    have hparts : ∀ next, Apart (Path.location fs.here source ++ [next])
        (Path.location fs.here target ++ [name]) := fun next =>
      hapart.mono (List.prefix_append _ _) (List.prefix_append _ _)
    obtain ⟨between, hfirst⟩ := hall fs source target name name h hsource htarget hname hname
      (hparts name) hthere hfits (hfuel name hname)
    obtain ⟨-, hreplaces⟩ := copiesRight fuel fs between source target name name h hsource htarget
      hname hname (hparts name) hfirst
    have hkeep : ∀ l, fs.directoryAt l = true → between.directoryAt l = true :=
      fun l => hreplaces.directoryAt hfits
    obtain ⟨fs', hlater⟩ := ih hreplaces.plain (hsource.mono hreplaces.here fun l _ => hkeep l)
      (htarget.mono hreplaces.here fun l _ => hkeep l) (hreplaces.here ▸ hapart) fun next hnext => by
        obtain ⟨hnextName, ⟨entry, hget⟩, hnextFits⟩ := hrest next hnext
        have hfrom := hreplaces.view_eq_of_apart (hparts next).symm
        rw [hreplaces.here, hfrom, ← view_nil between, hfrom, view_nil]
        refine ⟨hnextName, ⟨entry, hget⟩, ?_⟩
        by_cases heq : next = name
        · subst heq
          rw [hreplaces.inside]
          exact hfits.overlay
        · rwa [hreplaces.view_eq_of_apart (apart_names _ (Ne.symm heq))]
    refine ⟨fs', (run_bind _ _ _).trans ?_⟩
    rw [hfirst]
    exact hlater

/-- All names of a directory that fits are copied. -/
theorem CopiesAll.below {source target : Path} (hall : CopiesAll fuel) (h : fs.Plain)
    (hsource : fs.Reaches source) (htarget : fs.Reaches target)
    (hapart : Apart (Path.location fs.here source) (Path.location fs.here target))
    (hlist : fs.list source = .ok (fs.names (Path.location fs.here source)))
    (hfits : ∀ name, View.Fits (Path.join source name) (Path.join target name) name
      (fs.view (Path.location fs.here source ++ [name]))
      (fs.view (Path.location fs.here target ++ [name])))
    (hfuel : maxPath ≤ fuel + 1 + source.length) :
    ∃ fs', ((copyBelow true fuel source target).run fs).run = (.ok (), fs') := by
  unfold copyBelow
  rw [run_ask_bind, hlist]
  refine hall.names h hsource htarget hapart (fun name hmem => ?_) fun name hname => ?_
  · exact ⟨h.isName_of_mem_names hmem, mem_names_iff.mp hmem, hfits name⟩
  · have hlength := Path.length_lt_join hname source
    omega

/-- A tree that fits is copied. -/
theorem copiesAll (fuel : Nat) : CopiesAll fuel := by
  induction fuel with
  | zero =>
    intro fs p q name other h _ _ _ _ _ ⟨entry, hget⟩ hfits hfuel
    have hshort := ((View.fits_iff.mp hfits).1 (by rw [view_nil, hget]; simp)).1
    omega
  | succ fuel ih =>
    intro fs p q name other h hp hq hname hother hapart ⟨entry, hfrom⟩ hfits hfuel
    obtain ⟨hshort, hshort', -⟩ :=
      (View.fits_iff.mp hfits).1 (by rw [view_nil, hfrom]; simp)
    cases entry with
    | link target => exact absurd hfrom (h.links _ target)
    | file mode content =>
      obtain ⟨result, after, hcopy, hok, -⟩ :=
        run_copyTree_file h hp hq hname hother hapart hshort hshort' fuel hfrom
      exact ⟨after, hok.mpr hfits ▸ hcopy⟩
    | directory mode =>
      have hdirectory : (fs.view (Path.location fs.here p ++ [name])).directoryAt [] = true := by
        rw [view_directoryAt_nil, directoryAt_iff]
        exact ⟨mode, hfrom⟩
      obtain ⟨-, -, hfile, hbelow⟩ := (View.fits_of_directory hdirectory).mp hfits
      have hcopy := run_copyTree_directory h hp hq hname hother hapart hshort hshort' fuel hfrom
      rw [hfile, if_neg (by simp)] at hcopy
      obtain ⟨between, henters, hfromReaches, htoReaches, hcopy⟩ := hcopy
      simp only [view_under, ← Path.location_join hname, ← Path.location_join hother]
        at hapart hfrom henters hbelow
      rw [hcopy]
      refine ih.below henters.plain hfromReaches htoReaches (henters.here ▸ hapart) ?_ ?_ hfuel
      · obtain ⟨hreaches, hsource⟩ := (reaches_join hname).mp hfromReaches
        rw [Path.location_join hname]
        exact henters.plain.list_join hreaches hname hshort hsource
      · intro next
        rw [henters.here, (henters.view_eq hapart next).1, (henters.view_eq hapart next).2]
        exact hbelow next

end FileAction

end NativeBuild
