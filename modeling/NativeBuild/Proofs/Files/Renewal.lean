import NativeBuild.Proofs.Files.Links

/-!
# Files that are removed and written again

A path leads nowhere once the entry that it names has been removed, whatever the links on its way.
A file that is made there and appended to is found with all that was written. What is logged to
other places does not change what is found.
-/
namespace NativeBuild

namespace FileSystem

variable {fs fs' : FileSystem} {follow : Bool} {dir : Location} {p : Path}

/-- A path leads to none of some places. -/
def Avoids (places : List Location) (p : Path) (fs : FileSystem) : Prop :=
  ∀ at_ e, fs.status p = .ok (at_, e) → at_ ∉ places

/-- A path that is kept apart from the logs still leads to the same. -/
theorem LoggedAt.status_eq {places : List Location} (h : LoggedAt places fs fs')
    (havoids : Avoids places p fs) : fs'.status p = fs.status p := by
  have hresolve' := h.resolve true p
  cases hresolve : fs.resolve true p with
  | error e =>
    rw [hresolve] at hresolve'
    exact (entryAt_of_error hresolve').trans (entryAt_of_error hresolve).symm
  | ok place =>
    rw [hresolve] at hresolve'
    cases place with
    | free => exact (status_of_free hresolve').trans (status_of_free hresolve).symm
    | entry at_ e =>
      have hstands : (fs.get? at_).getD (.directory 0o755) = e := stands_of_resolve hresolve
      have hsame : (fs'.get? at_).getD e = e := by
        rw [h.get?_eq (havoids at_ e (status_of_entry hresolve))]
        subst hstands
        cases fs.get? at_ <;> rfl
      rw [Except.map, Place.renew, hsame] at hresolve'
      rw [status_of_entry hresolve', status_of_entry hresolve]

/-- The content of the file that a path leads to. -/
def content? (fs : FileSystem) (p : Path) : Option Text := (fs.read p).toOption

theorem LoggedAt.content?_eq {places : List Location} (h : LoggedAt places fs fs')
    (havoids : Avoids places p fs) : fs'.content? p = fs.content? p := by
  unfold content? read
  rw [h.status_eq havoids]

/-- A place of a file that is none of some places. -/
def Place.Fresh (places : List Location) : Place → Prop
  | .entry at_ (.file _ _) => at_ ∉ places
  | .entry _ _ => False
  | .free at_ => at_ ∉ places

/-- A path leads to a file or to where one can be made, if it leads anywhere, and to none of some
places. -/
def Fresh (places : List Location) (p : Path) (fs : FileSystem) : Prop :=
  ∀ place, fs.resolve true p = .ok place → place.Fresh places

instance (places : List Location) (place : Place) : Decidable (place.Fresh places) :=
  match place with
  | .entry at_ (.file _ _) => inferInstanceAs (Decidable (at_ ∉ places))
  | .entry _ (.directory _) => inferInstanceAs (Decidable False)
  | .entry _ (.link _) => inferInstanceAs (Decidable False)
  | .free at_ => inferInstanceAs (Decidable (at_ ∉ places))

instance (places : List Location) (p : Path) (fs : FileSystem) : Decidable (Fresh places p fs) :=
  match h : fs.resolve true p with
  | .ok place => decidable_of_iff (place.Fresh places)
    ⟨fun hplace _ hother => Except.ok.inj (h.symm.trans hother) ▸ hplace,
      fun hfresh => hfresh place h⟩
  | .error _ => .isTrue fun _ hother => nomatch h.symm.trans hother

theorem Fresh.avoids {places : List Location} (h : Fresh places p fs) : Avoids places p fs := by
  intro at_ e hstatus
  have hfresh := h _ (resolve_of_status hstatus)
  cases e with
  | file => exact hfresh
  | directory | link => exact hfresh.elim

theorem fresh_of_resolve {places : List Location} {place : Place}
    (h : fs.resolve true p = .ok place) (hplace : place.Fresh places) : Fresh places p fs := by
  intro other hother
  rw [h] at hother
  exact Except.ok.inj hother ▸ hplace

theorem content?_of_file {at_ : Location} {mode : Nat} {content : Text}
    (h : fs.resolve true p = .ok (.entry at_ (.file mode content))) :
    fs.content? p = some content := by
  unfold content? read
  rw [status_of_entry h]
  rfl

theorem LoggedAt.fresh {places : List Location} (h : LoggedAt places fs fs')
    (hfresh : Fresh places p fs) : Fresh places p fs' := by
  intro place hplace
  rw [h.resolve] at hplace
  cases hresolve : fs.resolve true p with
  | error =>
    rw [hresolve] at hplace
    cases hplace
  | ok before =>
    rw [hresolve] at hplace
    obtain rfl := Except.ok.inj hplace
    have hbefore := hfresh before hresolve
    cases before with
    | free => exact hbefore
    | entry at_ e =>
      cases e with
      | file mode content =>
        have hget := (stands_of_resolve hresolve).get?_eq rfl
        rw [Place.renew, h.get?_eq hbefore, hget]
        exact hbefore
      | directory | link => exact hbefore.elim

section Removed

/-- A path leads nowhere unless it resolves to an entry. -/
theorem status_eq_error (h : ∀ at_ e, fs.resolve true p ≠ .ok (.entry at_ e)) :
    ∃ e, fs.status p = .error e := by
  cases hstatus : fs.status p with
  | error e => exact ⟨e, rfl⟩
  | ok found => exact absurd (resolve_of_status hstatus) (h found.1 found.2)

/-- A walk does not arrive at a name that no entry has. -/
theorem walkLinks_missing {last : Text} {tail : List Text} (hdot : last ≠ Path.dot)
    (hdotDot : last ≠ Path.dotDot)
    (hmissing : maxName < last.length ∨ fs.get? (dir ++ [last]) = none) (budget : Nat)
    (at_ : Location) (e : Entry) :
    fs.walkLinks follow budget dir (last :: tail) ≠ .ok (.entry at_ e) := by
  have hwalk : fs.walk follow dir (last :: tail) = .arrived (.free (dir ++ [last])) ∨
      ∃ e, fs.walk follow dir (last :: tail) = .refused e := by
    rw [walk, if_neg hdot, if_neg hdotDot]
    split
    · exact .inr ⟨_, rfl⟩
    rw [hmissing.resolve_left ‹_›]
    dsimp only
    split
    · exact .inl rfl
    · exact .inr ⟨_, rfl⟩
  rw [walkLinks]
  obtain hfree | ⟨e', hrefused⟩ := hwalk
  · rw [hfree]
    simp
  · rw [hrefused]
    simp

section Components

variable {before : List Text} {last : Text} (hne : visible p ≠ [])
  (hlength : (visible p).length < maxPath)
  (hcomponents : Path.components (visible p) = before ++ [last])
include hne hlength hcomponents

/-- A path is walked to its last component, and then on. -/
theorem resolve_eq_of_components : ∃ tail, fs.resolve follow p =
    fs.walkLinks follow maxLinks (Path.start fs.here (visible p)) (before ++ last :: tail) := by
  rw [resolve_eq_walkLinks hne hlength]
  unfold steps
  dsimp only
  rw [hcomponents]
  split
  · exact ⟨[Path.dot], by rw [List.append_assoc]; rfl⟩
  · exact ⟨[], rfl⟩

/-- A path that names an entry, if it leads anywhere, ends in a name once its parent is found. -/
theorem resolveLeaf_of_parent {dir : Location} {entry : Entry}
    (hname : ∀ leaf, fs.resolveLeaf p = .ok leaf → ∃ at_ slashed, leaf = .name at_ slashed)
    (hparent : fs.walkLinks true maxLinks (Path.start fs.here (visible p)) (before ++ [Path.dot]) =
      .ok (.entry dir entry)) :
    last ≠ Path.dot ∧ last ≠ Path.dotDot ∧ (maxName < last.length ∨
      ∃ slashed, fs.resolveLeaf p = .ok (.name (dir ++ [last]) slashed)) := by
  have hleaf := @resolveLeaf_eq fs p hne hlength last before hcomponents
  rw [hparent] at hleaf
  dsimp only at hleaf
  by_cases hdot : last = Path.dot
  · rw [if_pos hdot] at hleaf
    obtain ⟨at_, slashed, heq⟩ := hname _ hleaf
    cases heq
  rw [if_neg hdot] at hleaf
  by_cases hdotDot : last = Path.dotDot
  · rw [if_pos hdotDot] at hleaf
    obtain ⟨at_, slashed, heq⟩ := hname _ hleaf
    cases heq
  rw [if_neg hdotDot] at hleaf
  refine ⟨hdot, hdotDot, ?_⟩
  by_cases hlong : maxName < last.length
  · exact .inl hlong
  · rw [if_neg hlong] at hleaf
    exact .inr ⟨_, hleaf⟩

end Components

/-- A path leads nowhere if its last component cannot be reached, or there is nothing at it. Taking
entries away does not help. -/
theorem status_of_resolveLeaf (hfewer : Fewer fs' fs)
    (hmissing : ∀ dir name slashed, fs.resolveLeaf p = .ok (.name (dir ++ [name]) slashed) →
      fs'.get? (dir ++ [name]) = none)
    (hname : ∀ leaf, fs.resolveLeaf p = .ok leaf → ∃ at_ slashed, leaf = .name at_ slashed) :
    ∃ e, fs'.status p = .error e := by
  refine status_eq_error fun found e => ?_
  obtain ⟨refused, hrefused⟩ | hroot | ⟨hne, hlength, before, last, hcomponents⟩ :=
    resolveLeaf_cases p
  · rw [(hrefused fs' true).1]
    simp
  · obtain ⟨at_, slashed, heq⟩ := hname _ (hroot fs)
    cases heq
  obtain ⟨tail, hresolve⟩ :=
    @resolve_eq_of_components fs' true p before last hne hlength hcomponents
  rw [hresolve, hfewer.here]
  obtain ⟨e', -, hgoes⟩ | ⟨dir, entry, left, hdir, hgoes⟩ := fs'.walkLinks_append true maxLinks
    (Path.start fs.here (visible p)) before (List.cons_ne_nil last tail)
  · rw [hgoes]
    simp
  -- The parent is reached, so it was reached before anything was taken away.
  have hwithin := hfewer.walkLinks true maxLinks (Path.start fs.here (visible p))
    (before ++ [Path.dot])
  rw [hdir] at hwithin
  obtain ⟨entry', hparent⟩ := hwithin.of_entry
  obtain ⟨hdot, hdotDot, hlast⟩ := resolveLeaf_of_parent hne hlength hcomponents hname hparent
  rw [hgoes]
  refine walkLinks_missing hdot hdotDot ?_ left found e
  exact hlast.imp_right fun ⟨slashed, hleaf⟩ => hmissing _ _ _ hleaf

end Removed

end FileSystem

namespace FileAction

open FileSystem

variable {fs fs' : FileSystem} {p : Path}

/-- Either what a path names is removed, or nothing is. -/
theorem run_remove_cases (p : Path) (fs : FileSystem) :
    (∃ at_ slashed e, fs.resolveLeaf p = .ok (.name at_ slashed) ∧ fs.get? at_ = some e ∧
      (slashed = true → e.isDirectory = true) ∧
        ((remove p).run fs).run = (.ok (), fs.erase at_)) ∨
    ∃ refused, ((remove p).run fs).run = (.error refused, fs) ∧
      (refused = .notFound → fs.resolveLeaf p = .error .notFound ∨
        ∃ at_ slashed, fs.resolveLeaf p = .ok (.name at_ slashed) ∧ fs.get? at_ = none) := by
  unfold remove
  rw [run_get_bind, run_ask_bind]
  cases hleaf : fs.resolveLeaf p with
  | error e => exact .inr ⟨e, rfl, fun heq => .inl (congrArg _ heq)⟩
  | ok leaf =>
    cases leaf with
    | root | dot | dotDot => exact .inr ⟨_, rfl, nofun⟩
    | name at_ slashed =>
      dsimp only
      split
      · exact .inr ⟨_, rfl, fun _ => .inr ⟨at_, slashed, rfl, ‹_›⟩⟩
      · next hdirectory =>
        split
        · exact .inl ⟨at_, slashed, _, rfl, hdirectory, fun _ => rfl, rfl⟩
        · exact .inr ⟨_, rfl, nofun⟩
      · next e _ hthere =>
        split
        · exact .inr ⟨_, rfl, nofun⟩
        · next hslash =>
          exact .inl ⟨at_, slashed, e, rfl, hthere, fun hslashed => absurd hslashed hslash, rfl⟩

/-- What is removed had a name, and its entry is gone. With a slash behind the name it was a
directory. -/
theorem of_run_remove (h : ((remove p).run fs).run = (.ok (), fs')) :
    ∃ at_ slashed e, fs.resolveLeaf p = .ok (.name at_ slashed) ∧ fs.get? at_ = some e ∧
      (slashed = true → e.isDirectory = true) ∧ fs' = fs.erase at_ := by
  obtain ⟨at_, slashed, e, hleaf, hget, hslash, hrun⟩ | ⟨refused, hrun, -⟩ := run_remove_cases p fs
  · exact ⟨at_, slashed, e, hleaf, hget, hslash, congrArg Prod.snd (h.symm.trans hrun)⟩
  · cases congrArg Prod.fst (h.symm.trans hrun)

/-- What is not there to be removed is not there at all. -/
theorem of_run_remove_notFound (h : ((remove p).run fs).run = (.error .notFound, fs')) :
    fs.resolveLeaf p = .error .notFound ∨
      ∃ at_ slashed, fs.resolveLeaf p = .ok (.name at_ slashed) ∧ fs.get? at_ = none := by
  obtain ⟨at_, slashed, e, -, -, -, hrun⟩ | ⟨refused, hrun, hnone⟩ := run_remove_cases p fs
  · cases congrArg Prod.fst (h.symm.trans hrun)
  · exact hnone (Except.error.inj (congrArg Prod.fst (hrun.symm.trans h)))

/-- A path leads nowhere once what it names has been removed. -/
theorem status_of_removeIfThere (h : ((removeIfThere p).run fs).run = (.ok (), fs')) :
    ∃ e, fs'.status p = .error e := by
  unfold removeIfThere at h
  rw [run_get_bind] at h
  split at h
  · next after hremove =>
    obtain rfl : after = fs' := congrArg Prod.snd h
    obtain ⟨at_, slashed, -, hleaf, -, -, rfl⟩ := of_run_remove hremove
    refine status_of_resolveLeaf (fs.fewer_erase at_) ?_ ?_
    · intro dir name other hl
      rw [hleaf] at hl
      cases hl
      rw [get?_erase _ _ _ (by simp), if_pos (by simp)]
    · intro leaf hl
      exact ⟨at_, slashed, Except.ok.inj (hl.symm.trans hleaf)⟩
  · next after hremove =>
    obtain rfl : fs = fs' := congrArg Prod.snd h
    refine status_of_resolveLeaf (Fewer.refl fs) ?_ ?_
    · intro dir name other hl
      obtain hleaf | ⟨at_, slashed, hleaf, hnone⟩ := of_run_remove_notFound hremove
      · rw [hleaf] at hl
        cases hl
      · rw [hleaf] at hl
        cases hl
        exact hnone
    · intro leaf hl
      obtain hleaf | ⟨at_, slashed, hleaf, -⟩ := of_run_remove_notFound hremove
      · rw [hleaf] at hl
        cases hl
      · exact ⟨at_, slashed, Except.ok.inj (hl.symm.trans hleaf)⟩
  · cases congrArg Prod.fst h

variable {places : List Location}

end FileAction

end NativeBuild
