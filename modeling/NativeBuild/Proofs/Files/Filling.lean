import NativeBuild.Proofs.Files.Operations
import NativeBuild.Proofs.Files.Rewriting

/-!
# Files that change under a walk

Files that change, and files that are made where nothing was, leave every directory and every link
as it is. So a path that led to something still leads there, and a path that leads somewhere only
now leads to a file that was made. A file that could be opened for writing still can.
-/
namespace NativeBuild

namespace FileSystem

variable {fs fs' fs'' : FileSystem} {free : Location → Prop} {places : List Location} {p : Path}

theorem Filled.refl (free : Location → Prop) (fs : FileSystem) : Filled free fs fs :=
  ⟨rfl, fun _ => .inl rfl⟩

theorem Filled.trans (h : Filled free fs fs') (h' : Filled free fs' fs'') : Filled free fs fs'' where
  here := h'.here.trans h.here
  get?_eq_or l := by
    obtain hsame | ⟨hbetween, hbefore⟩ := h.get?_eq_or l
    · rw [← hsame]
      exact h'.get?_eq_or l
    · obtain hsame' | ⟨hafter, -⟩ := h'.get?_eq_or l
      · exact .inr ⟨hsame'.symm ▸ hbetween, hbefore⟩
      · exact .inr ⟨hafter, hbefore⟩

theorem Filled.mono {free' : Location → Prop} (h : Filled free fs fs') (hfree : ∀ l, free l → free' l) :
    Filled free' fs fs' :=
  ⟨h.here, fun l => (h.get?_eq_or l).imp_right fun ⟨hafter, hbefore⟩ =>
    ⟨hafter, hbefore.imp_left fun ⟨hnone, hl⟩ => ⟨hnone, hfree l hl⟩⟩⟩

theorem Filled.set {l : Location} (hl : l ≠ []) {mode : Nat} {content : Text}
    (hbefore : fs.get? l = none ∧ free l ∨ ∃ mode old, fs.get? l = some (.file mode old)) :
    Filled free fs (fs.set l (.file mode content)) := by
  refine ⟨rfl, fun l' => ?_⟩
  obtain hsame | ⟨rfl, hset⟩ := get?_set_eq_or fs l l' (.file mode content)
  · exact .inl hsame
  · exact .inr ⟨⟨mode, content, hset⟩, hbefore⟩

section

variable (h : Filled free fs fs')
include h

/-- A path leads where it led, or to a file that was made there. -/
theorem Filled.resolve_of_ok {place : Place} {follow : Bool}
    (hresolve : fs.resolve follow p = .ok place) :
    fs'.resolve follow p = .ok (place.renew fs') ∨
      ∃ at_ mode content, place = .free at_ ∧ free at_ ∧
        fs'.resolve follow p = .ok (.entry at_ (.file mode content)) := by
  have hfilled := h.resolve follow p
  rw [hresolve] at hfilled
  generalize hw : Walk.ofResult (.ok place) = w at hfilled
  generalize hw' : Walk.ofResult (fs'.resolve follow p) = w' at hfilled
  cases hfilled with
  | arrived other =>
    obtain rfl := Walk.arrived.inj hw
    exact .inl (Walk.eq_ok_of_ofResult hw')
  | made at_ mode content hfree =>
    obtain rfl := Walk.arrived.inj hw
    exact .inr ⟨at_, mode, content, rfl, hfree, Walk.eq_ok_of_ofResult hw'⟩
  | refused => cases hw
  | blocked => cases hw
  | jump => cases hw

theorem Filled.resolve_of_error {e : FileError} {follow : Bool}
    (hresolve : fs.resolve follow p = .error e) : ∃ e', fs'.resolve follow p = .error e' := by
  have hfilled := h.resolve follow p
  rw [hresolve] at hfilled
  cases hafter : fs'.resolve follow p with
  | error e' => exact ⟨e', rfl⟩
  | ok place =>
    rw [hafter] at hfilled
    cases hfilled

/-- What is free was free. -/
theorem Filled.resolve_free {at_ : Location} {follow : Bool}
    (hfree : fs'.resolve follow p = .ok (.free at_)) : fs.resolve follow p = .ok (.free at_) := by
  cases hresolve : fs.resolve follow p with
  | error e =>
    obtain ⟨e', hafter⟩ := h.resolve_of_error hresolve
    cases hfree.symm.trans hafter
  | ok place =>
    obtain hafter | ⟨_, _, _, -, -, hafter⟩ := h.resolve_of_ok hresolve
    · obtain rfl : place = .free at_ := by
        cases place with
        | free => cases hfree.symm.trans hafter; rfl
        | entry => cases hfree.symm.trans hafter
      rfl
    · cases hfree.symm.trans hafter

/-- A path that led to a file leads to a file there. -/
theorem Filled.status_of_file {at_ : Location} {mode : Nat} {content : Text}
    (hstatus : fs.status p = .ok (at_, .file mode content)) :
    ∃ mode' content', fs'.status p = .ok (at_, .file mode' content') := by
  have hget := get?_of_status hstatus rfl
  obtain hafter | ⟨_, _, _, hplace, -⟩ := h.resolve_of_ok (resolve_of_status hstatus)
  · obtain ⟨mode', content', hfile⟩ := h.get?_of_file hget
    refine ⟨mode', content', status_of_entry ?_⟩
    rw [hafter, Place.renew, hfile]
    rfl
  · cases hplace

variable (hapart : ∀ place, fs.resolve true p = .ok place → ¬ free place.location)
include hapart

/-- A path that led to something else leads to that. -/
theorem Filled.status_of_not_file {at_ : Location} {e : Entry} (hstatus : fs.status p = .ok (at_, e))
    (hfile : e.isFile = false) : fs'.status p = .ok (at_, e) := by
  have hresolve := resolve_of_status hstatus
  have hstands : (fs.get? at_).getD (.directory 0o755) = e := stands_of_resolve hresolve
  have hsame : fs'.get? at_ = fs.get? at_ := by
    obtain hsame | ⟨-, ⟨-, hfree⟩ | ⟨mode, old, hold⟩⟩ := h.get?_eq_or at_
    · exact hsame
    · exact absurd hfree (hapart _ hresolve)
    · rw [hold] at hstands
      subst hstands
      cases hfile
  obtain hafter | ⟨_, _, _, hplace, -⟩ := h.resolve_of_ok hresolve
  · refine status_of_entry ?_
    rw [hafter, Place.renew, hsame]
    subst hstands
    cases fs.get? at_ <;> rfl
  · cases hplace

/-- A path that led nowhere leads nowhere. -/
theorem Filled.status_of_error {e : FileError} (hstatus : fs.status p = .error e) :
    ∃ e', fs'.status p = .error e' := by
  cases hresolve : fs.resolve true p with
  | error e =>
    obtain ⟨e', hafter⟩ := h.resolve_of_error hresolve
    exact ⟨e', entryAt_of_error hafter⟩
  | ok place =>
    cases place with
    | entry at_ entry => cases hstatus.symm.trans (status_of_entry hresolve)
    | free at_ =>
      obtain hafter | ⟨at', _, _, hplace, hfree, -⟩ := h.resolve_of_ok hresolve
      · exact ⟨_, status_of_free hafter⟩
      · exact absurd (Place.free.inj hplace ▸ hfree) (hapart _ hresolve)

/-- A path leads nowhere still, or to the same place, and to a file if it led to one. -/
theorem Filled.status_cases :
    (∃ e e', fs.status p = .error e ∧ fs'.status p = .error e') ∨
      ∃ at_ e e', fs.status p = .ok (at_, e) ∧ fs'.status p = .ok (at_, e') ∧
        e'.isFile = e.isFile := by
  cases hstatus : fs.status p with
  | error e =>
    obtain ⟨e', hafter⟩ := h.status_of_error hapart hstatus
    exact .inl ⟨e, e', rfl, hafter⟩
  | ok found =>
    obtain ⟨at_, e⟩ := found
    cases hfile : e.isFile with
    | false => exact .inr ⟨at_, e, e, rfl, h.status_of_not_file hapart hstatus hfile, hfile ▸ rfl⟩
    | true =>
      cases e with
      | file mode content =>
        obtain ⟨mode', content', hafter⟩ := h.status_of_file hstatus
        exact .inr ⟨at_, _, _, rfl, hafter, rfl⟩
      | directory | link => cases hfile

theorem Filled.isFile_eq : fs'.isFile p = fs.isFile p := by
  unfold isFile
  obtain ⟨e, e', hbefore, hafter⟩ | ⟨at_, e, e', hbefore, hafter, hfile⟩ := h.status_cases hapart
  · rw [hbefore, hafter]
  · rw [hbefore, hafter]
    exact hfile

theorem Filled.doesExist_eq : fs'.doesExist p = fs.doesExist p := by
  unfold doesExist
  obtain ⟨e, e', hbefore, hafter⟩ | ⟨at_, e, e', hbefore, hafter, -⟩ := h.status_cases hapart
  · rw [hbefore, hafter]
    rfl
  · rw [hbefore, hafter]
    rfl

end

section Opens

/-- Entering a directory never ends at a free place. -/
theorem walkLinks_dot_ne_free (fs : FileSystem) (budget : Nat) (dir at_ : Location)
    (names : List Text) : fs.walkLinks true budget dir (names ++ [Path.dot]) ≠ .ok (.free at_) := by
  obtain ⟨e, hwalk, -⟩ | ⟨found, e, left, hwalk, -⟩ :=
    fs.walkLinks_append true budget dir names (List.cons_ne_nil Path.dot [])
  · rw [hwalk]
    simp
  · rw [hwalk]
    simp

variable (h : Filled free fs fs')
include h

/-- The same directories are entered. -/
theorem Filled.enters_iff (budget : Nat) (dir at_ : Location) (names : List Text) :
    (∃ e, fs.walkLinks true budget dir (names ++ [Path.dot]) = .ok (.entry at_ e)) ↔
      ∃ e, fs'.walkLinks true budget dir (names ++ [Path.dot]) = .ok (.entry at_ e) := by
  have hfilled := h.walkLinks true budget dir (names ++ [Path.dot])
  cases hbefore : fs.walkLinks true budget dir (names ++ [Path.dot]) with
  | error e =>
    rw [hbefore] at hfilled
    cases hafter : fs'.walkLinks true budget dir (names ++ [Path.dot]) with
    | error e' => simp
    | ok place =>
      rw [hafter] at hfilled
      cases hfilled
  | ok place =>
    rw [hbefore] at hfilled
    cases place with
    | free at' => exact absurd hbefore (walkLinks_dot_ne_free fs budget dir at' names)
    | entry at' e =>
      generalize hw : Walk.ofResult (.ok (.entry at' e)) = w at hfilled
      generalize hw' : Walk.ofResult (fs'.walkLinks true budget dir (names ++ [Path.dot])) = w'
        at hfilled
      cases hfilled with
      | arrived place =>
        obtain rfl := Walk.arrived.inj hw
        rw [Walk.eq_ok_of_ofResult hw']
        simp [Place.renew]
      | made => cases hw
      | refused => cases hw
      | blocked => cases hw
      | jump => cases hw

/-- A last component that can be looked at could be looked at before. -/
theorem Filled.resolveLeaf_iff (leaf : Leaf) :
    fs.resolveLeaf p = .ok leaf ↔ fs'.resolveLeaf p = .ok leaf :=
  ⟨fun hleaf => resolveLeaf_of_walkLinks hleaf h.here fun dir names at_ e hwalk =>
      (h.enters_iff maxLinks dir at_ names).mp ⟨e, hwalk⟩,
    fun hleaf => resolveLeaf_of_walkLinks hleaf h.here.symm fun dir names at_ e hwalk =>
      (h.enters_iff maxLinks dir at_ names).mpr ⟨e, hwalk⟩⟩

/-- A file can be opened for writing if it could be before. -/
theorem Filled.opens_iff
    (hthere : ∀ at_ e, fs.resolve true p = .ok (.entry at_ e) → ¬ free at_) :
    Opens places p fs ↔ Opens places p fs' := by
  have hplace : (∃ place, fs.resolve true p = .ok place ∧ place.Fresh places) ↔
      ∃ place, fs'.resolve true p = .ok place ∧ place.Fresh places := by
    cases hbefore : fs.resolve true p with
    | error e =>
      obtain ⟨e', hafter⟩ := h.resolve_of_error hbefore
      simp [hafter]
    | ok place =>
      obtain hafter | ⟨at_, mode, content, rfl, hfree, hafter⟩ := h.resolve_of_ok hbefore
      · rw [hafter]
        simp only [Except.ok.injEq, exists_eq_left']
        cases place with
        | free => rfl
        | entry at_ e =>
          have hstands : (fs.get? at_).getD (.directory 0o755) = e := stands_of_resolve hbefore
          rw [Place.renew]
          obtain hsame | ⟨⟨mode', content', hfile⟩, ⟨-, hfree⟩ | ⟨mode, old, hold⟩⟩ :=
            h.get?_eq_or at_
          · subst hstands
            rw [hsame]
            cases fs.get? at_ <;> rfl
          · exact absurd hfree (hthere at_ e hbefore)
          · rw [hold] at hstands
            subst hstands
            rw [hfile]
            rfl
      · rw [hafter]
        simp only [Except.ok.injEq, exists_eq_left']
        rfl
  exact ⟨fun hopens => ⟨hopens.leaf.imp fun _ => (h.resolveLeaf_iff _).mp, hplace.mp hopens.place⟩,
    fun hopens => ⟨hopens.leaf.imp fun _ => (h.resolveLeaf_iff _).mpr, hplace.mpr hopens.place⟩⟩

end Opens

end FileSystem

namespace FileAction

open FileSystem

variable {fs fs' : FileSystem} {places : List Location} {p source target : Path}

/-- A file that was written is at the end of its path. -/
theorem leaf_of_write {at_ : Location} {content : Text}
    (h : ((write p content).run fs).run = (.ok at_, fs')) :
    (∃ l, fs.resolveLeaf p = .ok (.name l false)) ∧ ∃ place, fs.resolve true p = .ok place := by
  obtain ⟨⟨found, before⟩, between, hopened, -⟩ := of_run_bind h
  have hplace : ∃ place, fs.resolve true p = .ok place := by
    obtain ⟨-, ⟨hresolve, -⟩ | ⟨e, hresolve, -⟩⟩ := writable_ok hopened
    · exact ⟨_, hresolve⟩
    · exact ⟨_, hresolve⟩
  refine ⟨?_, hplace⟩
  clear h
  rename' hopened => h
  unfold writable at h
  rw [run_ask_bind] at h
  split at h
  · next leaf hleaf =>
    split at h
    · exact ⟨_, hleaf⟩
    · rw [run_get_bind] at h
      split at h <;> cases congrArg Prod.fst h
    · cases congrArg Prod.fst h
  · cases congrArg Prod.fst h

theorem of_lookUp_some {found : Location × Entry} (h : lookUp fs p = .ok (some found)) :
    fs.status p = .ok found := by
  unfold lookUp at h
  split at h
  · next hstatus =>
    cases h
    exact hstatus
  · split at h <;> cases h

theorem run_setMode {at_ : Location} {entry : Entry} (h : fs.status p = .ok (at_, entry))
    (mode : Nat) : ((setMode p mode).run fs).run = (.ok (), fs.set at_ (entry.withMode mode)) := by
  unfold setMode
  rw [run_ask_bind, h]
  rfl

section

variable {l at_ : Location} (hleaf : fs.resolveLeaf p = .ok (.name l false)) (mode : Nat)
  (content : Text)
include hleaf

theorem run_makeFile_of_free (hresolve : fs.resolve true p = .ok (.free at_)) :
    ((makeFile p mode content).run fs).run =
      (.ok (), (fs.set at_ (.file (maskedMode 0o666) content)).set at_ (.file mode content)) := by
  have hopened := run_writable_of_resolve hleaf hresolve (.inl ⟨rfl, rfl⟩)
  unfold makeFile write
  rw [run_bind, run_bind_ok hopened]
  rfl

theorem run_replaceFile_of_file {old : Nat} {before : Text}
    (hresolve : fs.resolve true p = .ok (.entry at_ (.file old before))) :
    ((replaceFile p mode content).run fs).run =
      (.ok (), (fs.set at_ (.file old content)).set at_ (.file mode content)) := by
  have hopened := run_writable_of_resolve hleaf hresolve (.inr ⟨old, before, rfl, rfl⟩)
  have hafter : (fs.set at_ (.file old content)).status p = .ok (at_, .file old content) :=
    status_of_entry (resolve_set_of_file hresolve content)
  unfold replaceFile write
  rw [run_bind, run_bind_ok hopened]
  exact run_setMode hafter mode

end

/-- A file that can be opened somewhere else is copied there, and nothing else changes. -/
theorem run_copyFile_of_opens {origin : Location} {mode : Nat} {content : Text}
    (hsource : fs.status source = .ok (origin, .file mode content))
    (h : Opens [origin] target fs) :
    ∃ fs', ((copyFile source target true).run fs).run = (.ok (), fs') ∧
      Filled (fun l => fs.resolve true target = .ok (.free l)) fs fs' := by
  obtain ⟨l, hleaf⟩ := h.leaf
  obtain ⟨place, hresolve, hfresh⟩ := h.place
  have hstands := stands_of_resolve hresolve
  have hagain {at_ : Location} {mode' : Nat} {content' : Text} (hne : at_ ≠ [])
      (hset : Filled (fun l => fs.resolve true target = .ok (.free l)) fs
        (fs.set at_ (.file mode' content'))) :
      Filled (fun l => fs.resolve true target = .ok (.free l)) fs
        ((fs.set at_ (.file mode' content')).set at_ (.file mode content)) :=
    hset.trans (.set hne (.inr ⟨_, _, by rw [get?_set _ _ _ _ hne, if_pos rfl]⟩))
  cases place with
  | free at_ =>
    have hne : at_ ≠ [] := hstands.belowRoot
    have hlook : lookUp fs target = .ok none := by
      unfold lookUp
      rw [status_of_free hresolve]
      rfl
    rw [run_copyFile, hsource, hlook]
    exact ⟨_, run_makeFile_of_free hleaf mode content hresolve,
      hagain hne (.set hne (.inl ⟨hstands, hresolve⟩))⟩
  | entry at_ e =>
    cases e with
    | directory | link => exact hfresh.elim
    | file old before =>
      have hne : at_ ≠ [] := hstands.belowRoot rfl
      have hother : at_ ≠ origin := fun heq => hfresh (by simp [heq])
      have hlook : lookUp fs target = .ok (some (at_, .file old before)) := by
        unfold lookUp
        rw [status_of_entry hresolve]
      rw [run_copyFile, hsource, hlook]
      refine ⟨_, (if_neg hother).trans (run_replaceFile_of_file hleaf mode content hresolve), ?_⟩
      exact hagain hne (.set hne (.inr ⟨old, before, hstands.get?_eq rfl⟩))

/-- A file that was copied could be opened where it went, and is another one. -/
theorem opens_of_copyFile (h : ((copyFile source target true).run fs).run = (.ok (), fs')) :
    ∃ origin mode content, fs.status source = .ok (origin, .file mode content) ∧
      Opens [origin] target fs := by
  obtain ⟨origin, mode, content, there, hsource, hlook, hother⟩ := of_run_copyFile h
  refine ⟨origin, mode, content, hsource, ?_⟩
  rw [run_copyFile, hlook, hsource] at h
  cases there with
  | none =>
    obtain ⟨at_, between, hwrite, -⟩ := of_run_bind h
    obtain ⟨hleaf, place, hresolve⟩ := leaf_of_write hwrite
    refine ⟨hleaf, place, hresolve, ?_⟩
    cases place with
    | free at_ =>
      have hnone := stands_of_resolve hresolve
      have hsome := get?_of_status hsource rfl
      intro hmem
      rw [List.mem_singleton.mp hmem] at hnone
      cases hnone.symm.trans hsome
    | entry at_ e =>
      unfold lookUp at hlook
      rw [status_of_entry hresolve] at hlook
      cases hlook
  | some found =>
    obtain ⟨at_, e⟩ := found
    cases e with
    | directory | link => cases congrArg Prod.fst h
    | file old before =>
      have hne : at_ ≠ origin := hother _ rfl
      obtain ⟨at', between, hwrite, -⟩ := of_run_bind ((if_neg hne).symm.trans h)
      obtain ⟨hleaf, -⟩ := leaf_of_write hwrite
      refine ⟨hleaf, _, resolve_of_status (of_lookUp_some hlook), ?_⟩
      simpa [Place.Fresh] using hne

end FileAction

end NativeBuild
