import NativeBuild.Proofs.Files.Renewal
import NativeBuild.Proofs.Files.Rooted

/-!
# Directories that are entered and made

A path enters a directory if it leads there with a slash behind it. A directory that has just been
made is empty, so what lies below it in a path does not lead anywhere yet and is made as well. Where
a path led nowhere, it leads to an empty directory once all that is missing has been made.
-/
namespace NativeBuild

namespace FileSystem

variable {fs fs' : FileSystem} {dir at_ l : Location} {names : List Text} {name : Text} {mode : Nat}
  {p q : Path}

/-- Where a place leads with a slash behind it. -/
def Place.slashed : Place → Except FileError Place
  | .entry _ (.file _ _) => .error .notDirectory
  | .free _ => .error .notFound
  | place => .ok place

/-- Where a walk ends with a slash behind it. -/
def Walk.slashed : Walk → Walk
  | .arrived place => .ofResult place.slashed
  | .refused e => .refused e
  | .jump dir target rest => .jump dir target (rest ++ [Path.dot])

theorem Walk.slashed_ofResult (result : Except FileError Place) :
    (Walk.ofResult result).slashed = .ofResult (result >>= Place.slashed) := by
  cases result <;> rfl

section Closed

variable (h : (fs.view []).Closed)
include h

theorem walk_slash (hdir : fs.directoryAt dir = true) {names : List Text} {w : Walk}
    (hwalk : fs.walk true dir names = w) : fs.walk true dir (names ++ [Path.dot]) = w.slashed := by
  rw [← goes_iff] at hwalk
  induction hwalk with
  | done =>
    obtain ⟨mode, hget⟩ := directoryAt_iff.mp hdir
    simp only [List.nil_append, walk, hget]
    rfl
  | stay _ ih =>
    rw [List.cons_append, walk_dot]
    exact ih hdir
  | up _ ih =>
    rw [List.cons_append, walk_dotDot]
    exact ih (directoryAt_dropLast h hdir)
  | tooLong hdot hdotDot hlong => exact (Goes.tooLong hdot hdotDot hlong).walk_eq
  | free hname hget | missing hname hget => exact (Goes.missing hname hget (by simp)).walk_eq
  | file hname hget | blocked hname hget => exact (Goes.blocked hname hget (by simp)).walk_eq
  | link _ _ hfollow => cases hfollow
  | jump hname hget => exact (Goes.jump hname hget (.inr rfl)).walk_eq
  | down hname hget _ ih =>
    rw [List.cons_append, walk_cons_of_isLookedUp hname, hget]
    exact ih (directoryAt_iff.mpr ⟨_, hget⟩)

theorem walkLinks_slash (budget : Nat) (hdir : fs.directoryAt dir = true) (names : List Text) :
    fs.walkLinks true budget dir (names ++ [Path.dot]) =
      fs.walkLinks true budget dir names >>= Place.slashed := by
  have hgoes := fs.goesOn_walkLinks true budget dir names
  generalize fs.walkLinks true budget dir names = result at hgoes ⊢
  induction hgoes with
  | ended hwalk =>
    have hslash := walk_slash h hdir hwalk
    rw [Walk.slashed_ofResult] at hslash
    exact (GoesOn.ended hslash).walkLinks_eq
  | tooMany hwalk => exact (GoesOn.tooMany (walk_slash h hdir hwalk)).walkLinks_eq
  | nowhere hwalk => exact (GoesOn.nowhere (walk_slash h hdir hwalk)).walkLinks_eq
  | behind hwalk htarget _ ih =>
    rw [walkLinks_behind (walk_slash h hdir hwalk) htarget, ← List.append_assoc]
    exact ih (directoryAt_behind h hdir hwalk)

end Closed

/-- A path enters a directory: with a slash behind it, it leads there. -/
def Enters (fs : FileSystem) (p : Path) (at_ : Location) : Prop :=
  ∃ mode, fs.walkLinks true maxLinks (Path.start fs.here p) (Path.components p ++ [Path.dot]) =
    .ok (.entry at_ (.directory mode))

theorem Enters.unique (h : fs.Enters p at_) (h' : fs.Enters p l) : at_ = l := by
  obtain ⟨mode, hwalk⟩ := h
  obtain ⟨mode', hwalk'⟩ := h'
  cases hwalk.symm.trans hwalk'
  rfl

theorem Enters.congr (h : fs.Enters p at_) (habsolute : Path.isAbsolute q = Path.isAbsolute p)
    (hcomponents : Path.components q = Path.components p) : fs.Enters q at_ := by
  unfold Enters Path.start
  rw [habsolute, hcomponents]
  exact h

namespace RootedFor

variable (h : fs.RootedFor p)
include h

/-- A path that leads to a directory enters it. -/
theorem status_eq_directory_iff (hzero : 0 ∉ p) (hne : p ≠ []) (hshort : p.length < maxPath) :
    (∃ mode, fs.status p = .ok (at_, .directory mode)) ↔ fs.Enters p at_ := by
  have hresolve : fs.resolve true p =
      fs.walkLinks true maxLinks (Path.start fs.here p) (steps p) := by
    have hvisible := visible_eq hzero
    rw [resolve_eq_walkLinks (hvisible.symm ▸ hne) (hvisible.symm ▸ hshort), hvisible]
  have hstatus (mode : Nat) : fs.status p = .ok (at_, .directory mode) ↔
      fs.walkLinks true maxLinks (Path.start fs.here p) (steps p) =
        .ok (.entry at_ (.directory mode)) := by
    rw [← hresolve]
    exact entryAt_eq_ok_iff
  simp only [hstatus]
  unfold Enters
  obtain ⟨more, hsteps, rfl | rfl⟩ := exists_steps_eq p
  · rw [hsteps, List.append_nil, walkLinks_slash h.closed _ h.start]
    cases fs.walkLinks true maxLinks (Path.start fs.here p) (Path.components p) with
    | error => exact ⟨nofun, nofun⟩
    | ok place =>
      cases place with
      | free => exact ⟨nofun, nofun⟩
      | entry found e =>
        cases e with
        | directory | link => exact ⟨id, id⟩
        | file => exact ⟨fun ⟨_, heq⟩ => (nomatch heq), fun ⟨_, heq⟩ => (nomatch heq)⟩
  · rw [hsteps]

theorem enters_of_status (hzero : 0 ∉ p) (hstatus : fs.status p = .ok (at_, .directory mode)) :
    fs.Enters p at_ := by
  obtain ⟨hne, hshort, -⟩ := of_resolve_eq_ok hzero (resolve_of_status hstatus)
  exact (h.status_eq_directory_iff hzero hne hshort).mp ⟨mode, hstatus⟩

/-- A path without components enters the directory that it starts from. -/
theorem enters_start (hp : Path.components p = []) : fs.Enters p (Path.start fs.here p) := by
  obtain ⟨mode, hget⟩ := directoryAt_iff.mp h.start
  refine ⟨mode, ?_⟩
  have harrived : fs.walk true (Path.start fs.here p) [Path.dot] =
      .arrived (.entry (Path.start fs.here p) (.directory mode)) := by simp [walk, hget]
  rw [hp, List.nil_append, walkLinks, harrived]

theorem directoryAt_of_enters_path (hp : fs.Enters p at_) : fs.directoryAt at_ = true := by
  obtain ⟨mode, hwalk⟩ := hp
  exact directoryAt_of_enters h.closed h.start hwalk

/-- The name of what is in a directory leads there, unless it is a link. -/
theorem location_of_join (hzero : 0 ∉ p) (hname : Path.IsName name)
    (hdir : fs.status p = .ok (at_, .directory mode)) {e found : Entry}
    (hget : fs.get? (at_ ++ [name]) = some e) (hlink : ∀ target, e ≠ .link target)
    (hstatus : fs.status (Path.join p name) = .ok (l, found)) : l = at_ ++ [name] := by
  obtain ⟨mode', hwalk⟩ := h.enters_of_status hzero hdir
  obtain ⟨left, hgoes⟩ := exists_walkLinks_append hwalk true (List.cons_ne_nil name [])
  obtain ⟨-, -, hresolve⟩ :=
    of_resolve_eq_ok (Path.zero_not_mem_join hzero hname.zero) (resolve_of_status hstatus)
  have harrived : fs.walk true at_ [name] = .arrived (.entry (at_ ++ [name]) e) := by
    cases e with
    | file | directory => simp [walk, hname.ne_dot, hname.ne_dotDot, Nat.not_lt.mpr hname.length_le, hget]
    | link target => exact absurd rfl (hlink target)
  rw [Path.start_join hname.slash, steps_join hname, hgoes, walkLinks, harrived] at hresolve
  cases hresolve
  rfl

end RootedFor

section Child

variable (hp : fs.Enters p at_) (habsolute : Path.isAbsolute q = Path.isAbsolute p)
include hp habsolute

theorem Enters.dot (hq : Path.components q = Path.components p ++ [Path.dot])
    (h : fs.directoryAt at_ = true) : fs.Enters q at_ := by
  obtain ⟨mode, hget⟩ := directoryAt_iff.mp h
  obtain ⟨mode', hwalk⟩ := hp
  obtain ⟨left, hgoes⟩ := exists_walkLinks_append hwalk true (List.cons_ne_nil Path.dot [Path.dot])
  refine ⟨mode, ?_⟩
  unfold Path.start at hgoes ⊢
  rw [habsolute, hq, List.append_assoc]
  refine hgoes.trans ?_
  have harrived : fs.walk true at_ [Path.dot, Path.dot] = .arrived (.entry at_ (.directory mode)) := by
    simp [walk, hget]
  rw [walkLinks, harrived]

/-- What is not in the directory that is entered is not entered behind it. -/
theorem Enters.not_child (hq : Path.components q = Path.components p ++ [name])
    (hdot : name ≠ Path.dot) (hdotDot : name ≠ Path.dotDot) (hnone : fs.get? (at_ ++ [name]) = none)
    (l : Location) : ¬ fs.Enters q l := by
  rintro ⟨mode, hchild⟩
  obtain ⟨mode', hwalk⟩ := hp
  obtain ⟨left, hgoes⟩ := exists_walkLinks_append hwalk true (List.cons_ne_nil name [Path.dot])
  unfold Path.start at hgoes hchild
  rw [habsolute, hq, List.append_assoc] at hchild
  exact walkLinks_missing hdot hdotDot (.inr hnone) left l _ (hgoes.symm.trans hchild)

end Child

/-- A path enters an empty directory. -/
def Bare (fs : FileSystem) (p : Path) : Prop := ∃ at_, fs.Enters p at_ ∧ fs.names at_ = []

end FileSystem

namespace FileAction

open FileSystem

variable {fs fs' : FileSystem} {p target : Path}

/-- A directory that has been made is empty. -/
theorem bare_of_makeDirectory (h : fs.RootedFor p) (hzero : 0 ∉ p) {mode : Nat}
    (hrun : ((makeDirectory p mode).run fs).run = (.ok (), fs')) : fs'.Bare p := by
  obtain ⟨at_, slashed, hresolve, hfree, rfl⟩ := of_run_makeDirectory hrun
  obtain ⟨-, -, last, before, dir, e, hcomponents, hwalk, hdot, hdotDot, hlong, rfl, -⟩ :=
    of_resolveLeaf_eq_name hzero hresolve
  have hmade : (fs.set (dir ++ [last]) (.directory (maskedMode mode))).get? (dir ++ [last]) =
      some (.directory (maskedMode mode)) := by rw [get?_set _ _ _ _ (by simp), if_pos rfl]
  refine ⟨dir ++ [last], ⟨maskedMode mode, ?_⟩, ?_⟩
  · -- The directory that the name is in is still entered, and the name is there now.
    have hwithin := (fewer_set hfree (.directory (maskedMode mode))).walkLinks true maxLinks
      (Path.start fs.here p) (before ++ [Path.dot])
    rw [hwalk] at hwithin
    obtain ⟨e', hwalk'⟩ := hwithin.of_entry
    obtain ⟨left, hgoes⟩ := exists_walkLinks_append hwalk' true (List.cons_ne_nil last [Path.dot])
    rw [hcomponents, List.append_assoc]
    refine hgoes.trans ?_
    have harrived : (fs.set (dir ++ [last]) (.directory (maskedMode mode))).walk true dir
        [last, Path.dot] = .arrived (.entry (dir ++ [last]) (.directory (maskedMode mode))) := by
      simp [walk, hdot, hdotDot, Nat.not_lt.mpr hlong, hmade]
    rw [walkLinks, harrived]
  · rw [List.eq_nil_iff_forall_not_mem]
    intro name hname
    obtain ⟨entry, hget⟩ := mem_names_iff.mp hname
    rw [get?_set _ _ _ _ (by simp), if_neg (by simp)] at hget
    have hin : fs.directoryAt (dir ++ [last]) = true :=
      h.closed (dir ++ [last]) name fun hnone => by cases hget.symm.trans hnone
    obtain ⟨mode', hthere⟩ := directoryAt_iff.mp hin
    cases hfree.symm.trans hthere

/-- A directory that one step has made, or has found empty. -/
theorem bare_of_ensureOne (h : fs.RootedFor p) (hzero : 0 ∉ p)
    (hempty : ∀ at_, fs.Enters p at_ → fs.names at_ = [])
    (hrun : ((ensureOne p).run fs).run = (.ok (), fs')) : fs'.Bare p := by
  unfold ensureOne at hrun
  rw [run_get_bind] at hrun
  split at hrun
  · next after hmade =>
    obtain rfl : after = fs' := congrArg Prod.snd hrun
    exact bare_of_makeDirectory h hzero hmade
  · split at hrun
    · next hthere =>
      obtain rfl : fs = fs' := congrArg Prod.snd hrun
      obtain ⟨-, hdirectory⟩ := hthere
      obtain ⟨at_, mode, hstatus⟩ := isDirectory_iff.mp hdirectory
      have hp := h.enters_of_status hzero hstatus
      exact ⟨at_, hp, hempty at_ hp⟩
    · cases congrArg Prod.fst hrun

section Next

variable (h : fs.RootedFor p) (hall : p.all (· == Path.slash) = false)
  (hdots : Path.dotDot ∉ Path.components p)
include h hall hdots

omit h in
theorem fileName_ne_dotDot : Path.fileName p ≠ Path.dotDot := by
  intro hname
  have hsplit := Path.components_eq_parent_append hall
  rw [hname, if_neg (by decide)] at hsplit
  exact hdots (hsplit ▸ List.mem_append_right _ (.head _))

/-- What is entered behind an empty directory is that directory. -/
theorem names_of_bare_parent (hbare : fs.Bare (Path.parent p)) {l : Location} (hl : fs.Enters p l) :
    fs.names l = [] := by
  obtain ⟨at_, hat, hnames⟩ := hbare
  have hup : Path.isAbsolute p = Path.isAbsolute (Path.parent p) := (Path.isAbsolute_parent p).symm
  have hsplit := Path.components_eq_parent_append hall
  by_cases hnil : Path.fileName p = []
  · rw [if_pos hnil, List.append_nil] at hsplit
    exact (hl.congr hup.symm hsplit.symm).unique hat ▸ hnames
  rw [if_neg hnil] at hsplit
  by_cases hdot : Path.fileName p = Path.dot
  · have hin := (h.congr hup.symm).directoryAt_of_enters_path hat
    exact hl.unique (hat.dot hup (hdot ▸ hsplit) hin) ▸ hnames
  · refine absurd hl (hat.not_child hup hsplit hdot (fileName_ne_dotDot hall hdots) ?_ l)
    by_contra hthere
    obtain ⟨entry, hget⟩ := Option.ne_none_iff_exists'.mp hthere
    have hmem := mem_names_iff.mpr ⟨entry, hget⟩
    rw [hnames] at hmem
    cases hmem

/-- Where the parent of a path is entered, only the path is made. It is empty then if it was empty or
was not there. -/
theorem bare_of_next {found : List Path} (hzero : 0 ∉ p) {at_ : Location}
    (hat : fs.Enters (Path.parent p) at_) (hempty : ∀ l, fs.Enters p l → fs.names l = [])
    (hfound : ∀ fs fs', fs.RootedFor p → fs.Bare p →
      ((found.forM ensureOne).run fs).run = (.ok (), fs') → fs'.Bare target)
    (hrun : (((if Path.fileName p = Path.dot ∨ Path.fileName p = Path.dotDot then found
      else p :: found).forM ensureOne).run fs).run = (.ok (), fs')) : fs'.Bare target := by
  split at hrun
  · next hname =>
    have hdot : Path.fileName p = Path.dot := hname.resolve_right (fileName_ne_dotDot hall hdots)
    have hsplit := Path.components_eq_parent_append hall
    rw [hdot, if_neg (by decide)] at hsplit
    have hup : Path.isAbsolute p = Path.isAbsolute (Path.parent p) := (Path.isAbsolute_parent p).symm
    have hp := hat.dot hup hsplit ((h.congr hup.symm).directoryAt_of_enters_path hat)
    exact hfound fs fs' h ⟨at_, hp, hempty at_ hp⟩ hrun
  · obtain ⟨⟨⟩, between, hfirst, hrest⟩ := of_run_bind hrun
    exact hfound between fs' ((preserves_ensureOne_of_rootedFor rfl fs h).of_run hfirst)
      (bare_of_ensureOne h hzero hempty hfirst) hrest

end Next

/-- Making the missing directories of a path, the outermost first, leads to an empty directory. -/
theorem bare_of_missingAncestors {fuel : Nat} {found all : List Path} {after : FileSystem}
    (h : fs.RootedFor p) (hzero : 0 ∉ p) (hshort : p.length < maxPath)
    (hdots : Path.dotDot ∉ Path.components p) (hnot : ∀ at_, ¬ fs.Enters p at_)
    (hfound : ∀ fs fs', fs.RootedFor p → fs.Bare p →
      ((found.forM ensureOne).run fs).run = (.ok (), fs') → fs'.Bare target)
    (hrun : ((missingAncestors fuel p found).run fs).run = (.ok all, after))
    (hmake : ((all.forM ensureOne).run fs).run = (.ok (), fs')) : fs'.Bare target := by
  induction fuel generalizing p found with
  | zero => cases congrArg Prod.fst hrun
  | succ fuel ih =>
    have hall : p.all (· == Path.slash) = false := by
      rw [Bool.eq_false_iff]
      intro hslashes
      have hnil := @Path.components_slashes p (by simpa using hslashes) []
      rw [List.append_nil] at hnil
      exact hnot _ (h.enters_start hnil)
    have habove : fs.RootedFor (Path.parent p) := h.congr (Path.isAbsolute_parent p)
    have hstep : ∀ fs fs', fs.RootedFor (Path.parent p) → fs.Bare (Path.parent p) →
        (((if Path.fileName p = Path.dot ∨ Path.fileName p = Path.dotDot then found
          else p :: found).forM ensureOne).run fs).run = (.ok (), fs') → fs'.Bare target := by
      intro fs fs' habove hbare hrest
      have h : fs.RootedFor p := habove.congr (Path.isAbsolute_parent p).symm
      have hempty (l : Location) : fs.Enters p l → fs.names l = [] :=
        names_of_bare_parent h hall hdots hbare
      obtain ⟨at_, hat, -⟩ := hbare
      exact bare_of_next h hall hdots hzero hat hempty hfound hrest
    have hstop (at_ : Location) (hat : fs.Enters (Path.parent p) at_) :
        (((if Path.fileName p = Path.dot ∨ Path.fileName p = Path.dotDot then found
          else p :: found).forM ensureOne).run fs).run = (.ok (), fs') → fs'.Bare target :=
      bare_of_next h hall hdots hzero hat (fun l hl => absurd hl (hnot l)) hfound
    unfold missingAncestors at hrun
    dsimp only at hrun
    generalize hlonger : (if Path.fileName p = Path.dot ∨ Path.fileName p = Path.dotDot then found
      else p :: found) = longer at hrun hstep hstop
    split at hrun
    · cases congrArg Prod.fst hrun
    have hzero' : 0 ∉ Path.parent p := fun hmem => hzero (Path.mem_of_mem_parent hmem)
    have hshort' : (Path.parent p).length < maxPath :=
      Nat.lt_of_le_of_lt (Path.length_parent_le p) hshort
    split at hrun
    · next htop =>
      obtain rfl := Except.ok.inj (congrArg Prod.fst hrun)
      exact hstop _ (habove.enters_start (by rw [htop]; rfl)) hmake
    next htop =>
    rw [run_get_bind] at hrun
    split at hrun
    · next at_ mode hstatus =>
      obtain rfl := Except.ok.inj (congrArg Prod.fst hrun)
      exact hstop _ (habove.enters_of_status hzero' hstatus) hmake
    · cases congrArg Prod.fst hrun
    · next e hstatus =>
      split at hrun
      · refine ih habove hzero' hshort'
          (fun hmem => hdots ((Path.components_parent_isPrefix p).subset hmem)) (fun at_ hat => ?_)
          hstep hrun
        obtain ⟨mode, hthere⟩ := (habove.status_eq_directory_iff hzero' htop hshort').mpr hat
        cases hstatus.symm.trans hthere
      · cases congrArg Prod.fst hrun

/-- Without the slashes at its end, a path has the same components. -/
theorem exists_trimmed (hne : p ≠ []) : ∃ q,
    (if Path.hasFileName p || p.all (· == Path.slash) then p else Path.parent p) = q ∧
      Path.Above q p ∧ Path.components q = Path.components p ∧ q.length ≤ p.length := by
  split
  · exact ⟨p, rfl, .refl p, rfl, Nat.le_refl _⟩
  · next htail =>
    obtain ⟨hfile, hslashes⟩ : Path.hasFileName p = false ∧ p.all (· == Path.slash) = false := by
      simpa using htail
    obtain ⟨front, hfront⟩ := Path.eq_append_slash_of_not_hasFileName hfile hne
    have hname : Path.fileName p = [] := by simp [hfront, Path.fileName]
    have hsplit := Path.components_eq_parent_append hslashes
    rw [if_pos hname, List.append_nil] at hsplit
    exact ⟨_, rfl, Path.above_parent p, hsplit.symm, Path.length_parent_le p⟩

/-- A path that led nowhere leads to an empty directory once the directory has been made with all
that was missing. -/
theorem empty_of_makeDirectories (h : fs.RootedFor p) (hzero : 0 ∉ p)
    (hdots : Path.dotDot ∉ Path.components p) {e : FileError} (hstatus : fs.status p = .error e)
    (hrun : ((makeDirectories p).run fs).run = (.ok (), fs')) :
    ∃ at_ mode, fs'.status p = .ok (at_, .directory mode) ∧ fs'.names at_ = [] := by
  have hrooted := (preserves_makeDirectories_of_rootedFor p fs h).of_run hrun
  unfold makeDirectories at hrun
  dsimp only at hrun
  split at hrun
  · cases congrArg Prod.fst hrun
  next hne =>
  rw [run_get_bind, hstatus] at hrun
  dsimp only at hrun
  split at hrun
  · cases congrArg Prod.fst hrun
  next habsence =>
  have hshort : p.length < maxPath := by
    by_contra hlong
    unfold status entryAt resolve at hstatus
    dsimp only at hstatus
    rw [visible_eq hzero, if_neg hne, if_pos (Nat.not_lt.mp hlong)] at hstatus
    cases hstatus
    exact habsence rfl
  have hnot (at_ : Location) : ¬ fs.Enters p at_ := by
    intro hat
    obtain ⟨mode, hthere⟩ := (h.status_eq_directory_iff hzero hne hshort).mpr hat
    cases hstatus.symm.trans hthere
  obtain ⟨q, hq, habove, hcomponents, hlength⟩ := exists_trimmed hne
  have habsolute := habove.absolute
  have hzero' : 0 ∉ q := fun hmem => hzero (habove.bytes 0 hmem)
  rw [hq] at hrun
  obtain ⟨all, after, hmissing, hmake⟩ := of_run_bind hrun
  obtain ⟨result, hsame, -⟩ := run_missingAncestors (p.length + 1) q [] fs
  obtain ⟨rfl, rfl⟩ := Prod.mk.inj (hsame.symm.trans hmissing)
  have hbare : fs'.Bare p := by
    refine bare_of_missingAncestors (h.congr habsolute) hzero' (Nat.lt_of_le_of_lt hlength hshort)
      (hcomponents ▸ hdots) (fun at_ hat => hnot at_ (hat.congr habsolute.symm hcomponents.symm)) ?_
      hmissing hmake
    rintro fs fs' - ⟨at_, hat, hnames⟩ hnone
    obtain rfl : fs = fs' := congrArg Prod.snd hnone
    exact ⟨at_, hat.congr habsolute.symm hcomponents.symm, hnames⟩
  obtain ⟨at_, hat, hnames⟩ := hbare
  obtain ⟨mode, hthere⟩ := (hrooted.status_eq_directory_iff hzero hne hshort).mpr hat
  exact ⟨at_, mode, hthere, hnames⟩

end FileAction

end NativeBuild
