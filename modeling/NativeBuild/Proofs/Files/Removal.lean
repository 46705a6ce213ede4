import NativeBuild.Proofs.Files.Directories
import NativeBuild.Proofs.Files.Entering

/-!
# What is removed with a tree

A removal takes away what stands at the end of its path and all that is below, and nothing else,
whatever links there are: a link at the end is taken away itself unless a slash stands behind it.
What has been removed is not found again. And where nothing hangs loose, nothing does afterwards.
-/
namespace NativeBuild

namespace FileSystem

variable {fs fs' : FileSystem} {at_ l : Location} {p : Path}

theorem fewer_emptied (fs : FileSystem) (at_ : Location) : Fewer (fs.emptied at_) fs := by
  refine ⟨rfl, fun l hl => ?_⟩
  rw [get?_emptied fs at_ hl]
  split
  · exact .inl rfl
  · exact .inr rfl

section Closed

variable (h : (fs.view []).Closed)
include h

/-- Nothing hangs loose where all that is below goes with a directory. -/
theorem closed_filter (keep : Location → Bool)
    (hup : ∀ l name, keep (l ++ [name]) = true → keep l = true) :
    (view { fs with entries := fs.entries.filter fun e => keep e.1 } []).Closed := by
  intro rel name hne
  have hname : ([] : Location) ++ (rel ++ [name]) ≠ [] := by simp
  unfold view at hne
  rw [get?_filter fs keep hname] at hne
  split at hne
  · next hkeep =>
    have hrel := h rel name hne
    by_cases hroot : rel = []
    · subst hroot
      rfl
    · unfold View.directoryAt view at hrel ⊢
      rw [List.nil_append] at hrel ⊢
      rwa [get?_filter fs keep hroot, hup rel name hkeep, if_pos rfl]
  · exact absurd rfl hne

theorem closed_emptied (at_ : Location) : ((fs.emptied at_).view []).Closed := by
  refine closed_filter h (fun l => !(at_.isPrefixOf l && l != at_)) fun l name => ?_
  simp only [Bool.not_eq_true', Bool.and_eq_false_iff, bne_eq_false_iff_eq]
  rw [← Bool.not_eq_true, ← Bool.not_eq_true, List.isPrefixOf_iff_prefix,
    List.isPrefixOf_iff_prefix]
  rintro (hnot | rfl)
  · exact .inl fun hl => hnot (hl.trans (List.prefix_append l [name]))
  · exact .inl (not_name_isPrefix l name)

theorem closed_erase (at_ : Location) : ((fs.erase at_).view []).Closed := by
  refine closed_filter h (fun l => !at_.isPrefixOf l) fun l name => ?_
  rw [Bool.not_eq_true', Bool.not_eq_true', ← Bool.not_eq_true, ← Bool.not_eq_true,
    List.isPrefixOf_iff_prefix, List.isPrefixOf_iff_prefix]
  exact fun hnot hl => hnot (hl.trans (List.prefix_append l [name]))

end Closed

section Follow

/-- Only a link at the end makes a difference to whether links there are followed. -/
theorem Goes.follow {dir : Location} {names : List Text} {w : Walk} (h : fs.Goes false dir names w) :
    fs.Goes true dir names w ∨ ∃ at_ target, w = .arrived (.entry at_ (.link target)) := by
  induction h with
  | done => exact .inl (.done _)
  | stay _ ih => exact ih.imp_left .stay
  | up _ ih => exact ih.imp_left .up
  | tooLong hdot hdotDot hlong => exact .inl (.tooLong hdot hdotDot hlong)
  | free hname hget => exact .inl (.free hname hget)
  | missing hname hget hrest => exact .inl (.missing hname hget hrest)
  | file hname hget => exact .inl (.file hname hget)
  | blocked hname hget hrest => exact .inl (.blocked hname hget hrest)
  | link => exact .inr ⟨_, _, rfl⟩
  | jump hname hget => exact .inl (.jump hname hget (.inr rfl))
  | down hname hget _ ih => exact ih.imp_left (.down hname hget)

theorem walk_follow_jump {dir at_ : Location} {names rest : List Text} {target : Text}
    (h : fs.walk false dir names = .jump at_ target rest) :
    fs.walk true dir names = .jump at_ target rest := by
  obtain hsame | ⟨_, _, hlink⟩ := (goes_iff.mpr h).follow
  · exact goes_iff.mp hsame
  · cases hlink

theorem GoesOn.follow {budget : Nat} {dir : Location} {names : List Text}
    {result : Except FileError Place} (h : fs.GoesOn false budget dir names result) :
    fs.GoesOn true budget dir names result ∨
      ∃ at_ target, result = .ok (.entry at_ (.link target)) := by
  induction h with
  | ended hwalk =>
    obtain hsame | ⟨at_, target, hlink⟩ := (goes_iff.mpr hwalk).follow
    · exact .inl (.ended (goes_iff.mp hsame))
    · exact .inr ⟨at_, target, Walk.eq_ok_of_ofResult hlink⟩
  | tooMany hwalk => exact .inl (.tooMany (walk_follow_jump hwalk))
  | nowhere hwalk => exact .inl (.nowhere (walk_follow_jump hwalk))
  | behind hwalk htarget _ ih => exact ih.imp_left (.behind (walk_follow_jump hwalk) htarget)

theorem entryAt_follow (fs : FileSystem) (p : Path) : fs.entryAt false p = fs.status p ∨
    ∃ at_ target, fs.entryAt false p = .ok (at_, .link target) := by
  unfold status entryAt
  obtain ⟨e, hrefused⟩ | ⟨hne, hlength⟩ := resolve_cases p
  · rw [(hrefused fs true).1, (hrefused fs false).1]
    exact .inl rfl
  rw [resolve_eq_walkLinks hne hlength, resolve_eq_walkLinks hne hlength]
  obtain hsame | ⟨at_, target, hlink⟩ := (fs.goesOn_walkLinks false maxLinks
    (Path.start fs.here (visible p)) (steps (visible p))).follow
  · rw [hsame.walkLinks_eq]
    exact .inl rfl
  · rw [hlink]
    exact .inr ⟨at_, target, rfl⟩

/-- What is not found without following a link at the end is not found at all. -/
theorem status_of_entryAt {follow : Bool} {e : FileError} (h : fs.entryAt follow p = .error e) :
    fs.status p = .error e := by
  cases follow with
  | true => exact h
  | false =>
    obtain hsame | ⟨at_, target, hlink⟩ := fs.entryAt_follow p
    · exact hsame ▸ h
    · cases h.symm.trans hlink

end Follow

end FileSystem

namespace FileAction

open FileSystem

variable {fs fs' base : FileSystem} {p : Path}

/-- What is removed stands at the end of the path. A link there is looked at itself unless a slash
stands behind it. More entries do not hide it. -/
theorem entryAt_of_remove (hfewer : Fewer fs base) (hzero : 0 ∉ p)
    (h : ((remove p).run fs).run = (.ok (), fs')) :
    ∃ at_ e, base.entryAt (p.getLast? == some Path.slash) p = .ok (at_, e) ∧ fs' = fs.erase at_ := by
  obtain ⟨at_, slashed, e, hleaf, hthere, hdirectory, rfl⟩ := of_run_remove h
  obtain ⟨hne, hshort, last, before, dir, _, hcomponents, hwalk, hdot, hdotDot, hlong, rfl, rfl⟩ :=
    of_resolveLeaf_eq_name hzero hleaf
  refine ⟨dir ++ [last], e, ?_, rfl⟩
  have hbase : base.get? (dir ++ [last]) = some e := by
    obtain hnone | hsame := hfewer.get?_eq_or (dir ++ [last]) (by simp)
    · cases hnone.symm.trans hthere
    · exact hsame.symm.trans hthere
  -- The directory that the last name is in is entered among all entries as well.
  have hwithin := hfewer.walkLinks true maxLinks (Path.start fs.here p) (before ++ [Path.dot])
  rw [hwalk] at hwithin
  obtain ⟨e', hwalk'⟩ := hwithin.of_entry
  have hresolve : base.resolve (p.getLast? == some Path.slash) p = .ok (.entry (dir ++ [last]) e) := by
    have hvisible := visible_eq hzero
    rw [resolve_eq_walkLinks (hvisible.symm ▸ hne) (hvisible.symm ▸ hshort), hvisible, ← hfewer.here]
    unfold steps
    dsimp only
    rw [hcomponents]
    cases hslash : p.getLast? == some Path.slash with
    | false =>
      obtain ⟨left, hgoes⟩ := exists_walkLinks_append hwalk' false (List.cons_ne_nil last [])
      rw [if_neg (by simp)]
      refine hgoes.trans ?_
      have harrived : base.walk false dir [last] = .arrived (.entry (dir ++ [last]) e) := by
        cases e <;> simp [walk, hdot, hdotDot, Nat.not_lt.mpr hlong, hbase]
      rw [walkLinks, harrived]
    | true =>
      obtain ⟨left, hgoes⟩ := exists_walkLinks_append hwalk' true (List.cons_ne_nil last [Path.dot])
      rw [if_pos (by simp), List.append_assoc]
      refine hgoes.trans ?_
      have harrived : base.walk true dir [last, Path.dot] = .arrived (.entry (dir ++ [last]) e) := by
        cases e with
        | directory => simp [walk, hdot, hdotDot, Nat.not_lt.mpr hlong, hbase]
        | file | link => cases hdirectory hslash
      rw [walkLinks, harrived]
  exact entryAt_eq_ok_iff.mpr hresolve

/-- A removal takes the entry at the end of the path away, or nothing. -/
theorem run_removeIfThere_cases (hfewer : Fewer fs base) (hzero : 0 ∉ p) :
    ((removeIfThere p).run fs).run.2 = fs ∨
      ∃ at_ e, base.entryAt (p.getLast? == some Path.slash) p = .ok (at_, e) ∧
        ((removeIfThere p).run fs).run.2 = fs.erase at_ := by
  unfold removeIfThere
  rw [run_get_bind]
  split
  · next after hremove =>
    obtain ⟨at_, e, hentry, rfl⟩ := entryAt_of_remove hfewer hzero hremove
    exact .inr ⟨at_, e, hentry, rfl⟩
  · exact .inl rfl
  · exact .inl rfl

/-- What a removal of a whole tree takes away, refused or not. -/
inductive Removed (fs : FileSystem) (at_ : Location) : FileSystem → Prop
  | emptied : Removed fs at_ (fs.emptied at_)
  | erased : Removed fs at_ (fs.erase at_)
  | emptiedErased : Removed fs at_ ((fs.emptied at_).erase at_)

section Removed

variable {at_ : Location} (h : Removed fs at_ fs')
include h

theorem Removed.here : fs'.here = fs.here := by
  cases h <;> rfl

theorem Removed.get?_eq {l : Location} (hl : ¬ at_ <+: l) : fs'.get? l = fs.get? l := by
  by_cases hroot : l = []
  · subst hroot
    rfl
  · have hemptied : (fs.emptied at_).get? l = fs.get? l := by
      rw [get?_emptied fs at_ hroot, if_neg fun hboth => hl hboth.1]
    cases h with
    | emptied => exact hemptied
    | erased => rw [get?_erase_eq fs at_ hroot, if_neg hl]
    | emptiedErased => rw [get?_erase_eq _ at_ hroot, if_neg hl, hemptied]

theorem Removed.closed (hfs : (fs.view []).Closed) : (fs'.view []).Closed := by
  cases h with
  | emptied => exact closed_emptied hfs at_
  | erased => exact closed_erase hfs at_
  | emptiedErased => exact closed_erase (closed_emptied hfs at_) at_

theorem Removed.rootedFor (hfs : fs.RootedFor p)
    (hhere : Path.isAbsolute p = true ∨ ¬ at_ <+: fs.here) : fs'.RootedFor p := by
  by_cases hp : Path.isAbsolute p = true
  · exact .of_isAbsolute (h.closed hfs.closed) hp
  · have hstart := hfs.start
    unfold Path.start directoryAt at hstart
    rw [if_neg hp] at hstart
    refine ⟨h.closed hfs.closed, ?_⟩
    unfold Path.start directoryAt
    rwa [if_neg hp, h.here, h.get?_eq (hhere.resolve_left hp)]

end Removed

/-- A removal of a whole tree takes away what stands at the end of the path, with all that is below,
or nothing. -/
theorem run_removeAll_cases (fs : FileSystem) (hzero : 0 ∉ p) :
    ((removeAll p).run fs).run.2 = fs ∨
      ∃ at_ e, fs.entryAt (p.getLast? == some Path.slash) p = .ok (at_, e) ∧
        Removed fs at_ ((removeAll p).run fs).run.2 := by
  have hthere : ((removeIfThere p).run fs).run.2 = fs ∨
      ∃ at_ e, fs.entryAt (p.getLast? == some Path.slash) p = .ok (at_, e) ∧
        Removed fs at_ ((removeIfThere p).run fs).run.2 := by
    obtain hsame | ⟨at_, e, hentry, herase⟩ := run_removeIfThere_cases (.refl fs) hzero
    · exact .inl hsame
    · exact .inr ⟨at_, e, hentry, herase ▸ .erased⟩
  unfold removeAll
  rw [run_get_bind]
  split
  · next at_ mode hentry =>
    refine .inr ⟨at_, _, hentry, ?_⟩
    change Removed fs at_ ((removeIfThere p).run (fs.emptied at_)).run.2
    obtain hsame | ⟨found, e, hentry', herase⟩ := run_removeIfThere_cases (fs.fewer_emptied at_) hzero
    · rw [hsame]
      exact .emptied
    · cases hentry.symm.trans hentry'
      rw [herase]
      exact .emptiedErased
  · exact hthere
  · exact .inl rfl
  · exact hthere
  · exact hthere
  · exact .inl rfl

/-- What has been removed with all below it is not found again. -/
theorem status_of_removeAll (h : ((removeAll p).run fs).run = (.ok (), fs')) :
    ∃ e, fs'.status p = .error e := by
  unfold removeAll at h
  rw [run_get_bind] at h
  split at h
  · exact status_of_removeIfThere h
  · exact status_of_removeIfThere h
  · next hentry =>
    obtain rfl : fs = fs' := congrArg Prod.snd h
    exact ⟨_, status_of_entryAt hentry⟩
  · exact status_of_removeIfThere h
  · exact status_of_removeIfThere h
  · cases congrArg Prod.fst h

end FileAction

end NativeBuild
