import NativeBuild.Proofs.Files.Walks

/-!
# Walks that follow links

What a path leads to in the presence of links is decided by the directories and links on its way.
Where files get another content, every path leads where it led before. Where entries are taken away,
a path leads where it led, or nowhere. And a walk over some names and then others is a walk over the
others from the directory that the first ones lead to.
-/
namespace NativeBuild

namespace FileSystem

variable {fs fs' : FileSystem} {follow : Bool} {dir : Location} {names more : List Text} {p : Path}

section Filled

/-- One file system is the other, but for what is in files, and for files where some places were
free. -/
structure Filled (free : Location → Prop) (before after : FileSystem) : Prop where
  here : after.here = before.here
  get?_eq_or : ∀ l, after.get? l = before.get? l ∨
    (∃ mode content, after.get? l = some (.file mode content)) ∧
      (before.get? l = none ∧ free l ∨ ∃ mode old, before.get? l = some (.file mode old))

/-- A place as another file system has it. -/
def Place.renew (fs : FileSystem) : Place → Place
  | .entry at_ e => .entry at_ ((fs.get? at_).getD e)
  | .free at_ => .free at_

/-- Where a walk arrived, whether or not anything is there. -/
def Place.location : Place → Location
  | .entry at_ _ => at_
  | .free at_ => at_

/-- A walk ends where another one does, or at a file that has been made there. A walk that was
refused for what is missing may be refused for such a file. -/
inductive Walk.Filled (free : Location → Prop) (after : FileSystem) : Walk → Walk → Prop
  | arrived (place : Place) : Filled free after (.arrived place) (.arrived (place.renew after))
  | made (at_ : Location) (mode : Nat) (content : Text) (h : free at_) :
    Filled free after (.arrived (.free at_)) (.arrived (.entry at_ (.file mode content)))
  | refused (e : FileError) : Filled free after (.refused e) (.refused e)
  | blocked (at_ : Location) (h : free at_) :
    Filled free after (.refused .notFound) (.refused .notDirectory)
  | jump (dir : Location) (target : Text) (rest : List Text) :
    Filled free after (.jump dir target rest) (.jump dir target rest)

/-- What a walk ends at is the entry that the other file system has. -/
theorem Walk.Filled.entry {free : Location → Prop} {at_ : Location} {e : Entry}
    (hget : fs'.get? at_ = some e) (e' : Entry) :
    Walk.Filled free fs' (.arrived (.entry at_ e')) (.arrived (.entry at_ e)) := by
  have harrived : Walk.Filled free fs' _ _ := .arrived (.entry at_ e')
  rwa [Place.renew, hget] at harrived

/-- Where one walk ends, so does the other one. -/
theorem Walk.Filled.exists_ofResult {free : Location → Prop} {result : Except FileError Place}
    {w : Walk} (h : Walk.Filled free fs' (.ofResult result) w) : ∃ result', w = .ofResult result' := by
  generalize hw : Walk.ofResult result = w' at h
  cases h with
  | arrived place => exact ⟨.ok (place.renew fs'), rfl⟩
  | made at_ mode content => exact ⟨.ok (.entry at_ (.file mode content)), rfl⟩
  | refused e => exact ⟨.error e, rfl⟩
  | blocked => exact ⟨.error .notDirectory, rfl⟩
  | jump => cases result <;> cases hw

section

variable {free : Location → Prop} (h : Filled free fs fs')
include h

/-- What is no file stays. -/
theorem Filled.get?_eq_some {l : Location} {e : Entry} (hget : fs.get? l = some e)
    (hfile : e.isFile = false) : fs'.get? l = some e := by
  obtain hsame | ⟨-, ⟨hnone, -⟩ | ⟨_, _, hother⟩⟩ := h.get?_eq_or l
  · exact hsame.trans hget
  · cases hget.symm.trans hnone
  · cases hget.symm.trans hother
    cases hfile

theorem Filled.get?_of_file {l : Location} {mode : Nat} {content : Text}
    (hget : fs.get? l = some (.file mode content)) :
    ∃ mode' content', fs'.get? l = some (.file mode' content') := by
  obtain hsame | ⟨hafter, -⟩ := h.get?_eq_or l
  · exact ⟨mode, content, hsame.trans hget⟩
  · exact hafter

theorem Filled.get?_of_none {l : Location} (hget : fs.get? l = none) :
    fs'.get? l = none ∨ free l ∧ ∃ mode content, fs'.get? l = some (.file mode content) := by
  obtain hsame | ⟨hafter, ⟨-, hfree⟩ | ⟨_, _, hfile⟩⟩ := h.get?_eq_or l
  · exact .inl (hsame.trans hget)
  · exact .inr ⟨hfree, hafter⟩
  · cases hget.symm.trans hfile

theorem Filled.walk (follow : Bool) (dir : Location) (names : List Text) :
    (fs.walk follow dir names).Filled free fs' (fs'.walk follow dir names) := by
  have hgoes := fs.goes_walk follow dir names
  generalize fs.walk follow dir names = w at hgoes ⊢
  induction hgoes with
  | done dir =>
    rw [FileSystem.walk]
    cases hafter : fs'.get? dir with
    | some e => exact .entry hafter _
    | none =>
      have hbefore : fs.get? dir = none := by
        obtain hsame | ⟨⟨mode, content, hfile⟩, -⟩ := h.get?_eq_or dir
        · exact hsame.symm.trans hafter
        · cases hafter.symm.trans hfile
      rw [hbefore]
      have harrived : Walk.Filled free fs' _ _ := .arrived (.entry dir (.directory 0o755))
      rwa [Place.renew, hafter] at harrived
  | stay _ ih =>
    rw [walk_dot]
    exact ih
  | up _ ih =>
    rw [walk_dotDot]
    exact ih
  | tooLong hdot hdotDot hlong =>
    rw [(Goes.tooLong hdot hdotDot hlong).walk_eq]
    exact .refused _
  | free hname hget =>
    obtain hnone | ⟨hfree, mode, content, hfile⟩ := h.get?_of_none hget
    · rw [(Goes.free hname hnone).walk_eq]
      exact .arrived _
    · rw [(Goes.file hname hfile).walk_eq]
      exact .made _ _ _ hfree
  | missing hname hget hrest =>
    obtain hnone | ⟨hfree, mode, content, hfile⟩ := h.get?_of_none hget
    · rw [(Goes.missing hname hnone hrest).walk_eq]
      exact .refused _
    · rw [(Goes.blocked hname hfile hrest).walk_eq]
      exact .blocked _ hfree
  | file hname hget =>
    obtain ⟨mode, content, hfile⟩ := h.get?_of_file hget
    rw [(Goes.file hname hfile).walk_eq]
    exact .entry hfile _
  | blocked hname hget hrest =>
    obtain ⟨mode, content, hfile⟩ := h.get?_of_file hget
    rw [(Goes.blocked hname hfile hrest).walk_eq]
    exact .refused _
  | link hname hget hfollow =>
    have hlink := h.get?_eq_some hget rfl
    rw [(Goes.link hname hlink hfollow).walk_eq]
    exact .entry hlink _
  | jump hname hget hfollow =>
    rw [(Goes.jump hname (h.get?_eq_some hget rfl) hfollow).walk_eq]
    exact .jump _ _ _
  | down hname hget _ ih =>
    rw [walk_cons_of_isLookedUp hname, h.get?_eq_some hget rfl]
    exact ih

/-- A walk is interrupted by the same links. -/
theorem Filled.walk_jump {at_ : Location} {target : Text} {rest : List Text}
    (hwalk : fs.walk follow dir names = .jump at_ target rest) :
    fs'.walk follow dir names = .jump at_ target rest := by
  have hfilled := h.walk follow dir names
  rw [hwalk] at hfilled
  generalize fs'.walk follow dir names = w at hfilled
  cases hfilled
  rfl

theorem Filled.walkLinks (follow : Bool) (budget : Nat) (dir : Location) (names : List Text) :
    (Walk.ofResult (fs.walkLinks follow budget dir names)).Filled free fs'
      (Walk.ofResult (fs'.walkLinks follow budget dir names)) := by
  have hgoes := fs.goesOn_walkLinks follow budget dir names
  generalize fs.walkLinks follow budget dir names = result at hgoes ⊢
  induction hgoes with
  | @ended _ dir names _ hwalk =>
    have hfilled := h.walk follow dir names
    rw [hwalk] at hfilled
    obtain ⟨result', hafter⟩ := hfilled.exists_ofResult
    rw [hafter] at hfilled
    rwa [(GoesOn.ended hafter).walkLinks_eq]
  | tooMany hwalk =>
    rw [(GoesOn.tooMany (h.walk_jump hwalk)).walkLinks_eq]
    exact .refused _
  | nowhere hwalk =>
    rw [(GoesOn.nowhere (h.walk_jump hwalk)).walkLinks_eq]
    exact .refused _
  | behind hwalk htarget _ ih =>
    rw [walkLinks_behind (h.walk_jump hwalk) htarget]
    exact ih

theorem Filled.resolve (follow : Bool) (p : Path) :
    (Walk.ofResult (fs.resolve follow p)).Filled free fs'
      (Walk.ofResult (fs'.resolve follow p)) := by
  obtain ⟨e, hrefused⟩ | ⟨hne, hlength⟩ := resolve_cases p
  · rw [(hrefused fs follow).1, (hrefused fs' follow).1]
    exact .refused e
  · rw [resolve_eq_walkLinks hne hlength, resolve_eq_walkLinks hne hlength, h.here]
    exact h.walkLinks _ _ _ _

end

theorem Walk.ofResult_injective {r r' : Except FileError Place}
    (h : Walk.ofResult r = Walk.ofResult r') : r = r' := by
  cases r <;> cases r' <;> cases h <;> rfl

/-- Where no file is made, a walk ends as it did. -/
theorem Walk.Filled.eq {r r' : Except FileError Place}
    (h : (Walk.ofResult r).Filled (fun _ => False) fs' (Walk.ofResult r')) :
    r' = r.map (Place.renew fs') := by
  refine Walk.ofResult_injective ?_
  generalize hw : Walk.ofResult r = w at h
  generalize hw' : Walk.ofResult r' = w' at h ⊢
  cases h with
  | arrived place =>
    obtain rfl : r = .ok place := Walk.ofResult_injective hw
    rfl
  | refused e =>
    obtain rfl : r = .error e := Walk.ofResult_injective hw
    rfl
  | made _ _ _ hfree => exact hfree.elim
  | blocked _ hfree => exact hfree.elim
  | jump => cases r <;> cases hw

/-- Where only files change, a path leads to what it led to. -/
theorem Filled.resolve_eq (h : Filled (fun _ => False) fs fs') (follow : Bool) (p : Path) :
    fs'.resolve follow p = (fs.resolve follow p).map (Place.renew fs') :=
  (h.resolve follow p).eq

variable {places : List Location}

theorem LoggedAt.filled (h : LoggedAt places fs fs') : Filled (fun _ => False) fs fs' :=
  ⟨h.here, fun l => (h.get?_eq_or l).imp_right fun ⟨_, mode, old, new, hbefore, hafter⟩ =>
    ⟨⟨mode, new, hafter⟩, .inr ⟨mode, old, hbefore⟩⟩⟩

theorem LoggedAt.walkLinks (h : LoggedAt places fs fs') (follow : Bool) (budget : Nat)
    (dir : Location) (names : List Text) : fs'.walkLinks follow budget dir names =
      (fs.walkLinks follow budget dir names).map (Place.renew fs') :=
  (h.filled.walkLinks follow budget dir names).eq

theorem LoggedAt.resolve (h : LoggedAt places fs fs') (follow : Bool) (p : Path) :
    fs'.resolve follow p = (fs.resolve follow p).map (Place.renew fs') :=
  h.filled.resolve_eq follow p

end Filled

section Fewer

/-- Some entries of a file system are taken away. -/
structure Fewer (fs' fs : FileSystem) : Prop where
  here : fs'.here = fs.here
  get?_eq_or : ∀ l, l ≠ [] → fs'.get? l = none ∨ fs'.get? l = fs.get? l

theorem Fewer.refl (fs : FileSystem) : Fewer fs fs := ⟨rfl, fun _ _ => .inr rfl⟩

theorem fewer_erase (fs : FileSystem) (at_ : Location) : Fewer (fs.erase at_) fs := by
  refine ⟨rfl, fun l hl => ?_⟩
  rw [get?_erase _ _ _ hl]
  split
  · exact .inl rfl
  · exact .inr rfl

theorem fewer_set {at_ : Location} (h : fs.get? at_ = none) (e : Entry) :
    Fewer fs (fs.set at_ e) := by
  refine ⟨rfl, fun l hl => ?_⟩
  rw [get?_set _ _ _ _ hl]
  split
  · next heq => exact .inl (heq ▸ h)
  · exact .inr rfl

/-- A walk that leads nowhere, or ends as another one does. Where it finds a free place, the other
one finds the file that is there. -/
inductive Walk.Within (fs : FileSystem) : Walk → Walk → Prop
  | refused (e : FileError) (w : Walk) : Within fs (.refused e) w
  | free (at_ : Location) (w : Walk) (h : ∀ mode content,
      fs.get? at_ = some (.file mode content) → w = .arrived (.entry at_ (.file mode content))) :
    Within fs (.arrived (.free at_)) w
  | entry (at_ : Location) (e e' : Entry) :
    Within fs (.arrived (.entry at_ e)) (.arrived (.entry at_ e'))
  | jump (dir : Location) (target : Text) (rest : List Text) :
    Within fs (.jump dir target rest) (.jump dir target rest)

theorem Walk.eq_ok_of_ofResult {r : Except FileError Place} {place : Place}
    (h : Walk.ofResult r = .arrived place) : r = .ok place := by
  cases r with
  | ok => exact congrArg _ (Walk.arrived.inj h)
  | error => cases h

theorem Walk.Within.of_entry {r : Except FileError Place} {at_ : Location} {e : Entry}
    (h : (Walk.ofResult (.ok (.entry at_ e))).Within fs (Walk.ofResult r)) :
    ∃ e', r = .ok (.entry at_ e') := by
  generalize hw : Walk.ofResult r = w at h
  cases h with
  | entry _ _ e' => exact ⟨e', Walk.eq_ok_of_ofResult hw⟩

theorem Walk.Within.of_free {r : Except FileError Place} {at_ : Location} {mode : Nat}
    {content : Text} (h : (Walk.ofResult (.ok (.free at_))).Within fs (Walk.ofResult r))
    (hfile : fs.get? at_ = some (.file mode content)) :
    r = .ok (.entry at_ (.file mode content)) := by
  generalize hw : Walk.ofResult r = w at h
  cases h with
  | free _ _ hfound => exact Walk.eq_ok_of_ofResult (hw.trans (hfound mode content hfile))

/-- A walk that ends goes on over no links. -/
theorem Walk.Within.walkLinks {result : Except FileError Place}
    (h : (Walk.ofResult result).Within fs (fs.walk follow dir names)) (budget : Nat) :
    (Walk.ofResult result).Within fs (.ofResult (fs.walkLinks follow budget dir names)) := by
  generalize hw : Walk.ofResult result = w at h ⊢
  generalize hw' : fs.walk follow dir names = w' at h
  cases h with
  | refused => exact .refused _ _
  | free at_ _ hfound =>
    refine .free _ _ fun mode content hfile => ?_
    rw [walkLinks_of_arrived (hw'.trans (hfound mode content hfile))]
    rfl
  | entry =>
    rw [walkLinks_of_arrived hw']
    exact .entry _ _ _
  | jump => cases result <;> cases hw

variable (h : Fewer fs' fs)
include h

/-- What is there below the root was there. -/
theorem Fewer.get?_eq_some {name : Text} {e : Entry} (hget : fs'.get? (dir ++ [name]) = some e) :
    fs.get? (dir ++ [name]) = some e := by
  obtain hnone | hsame := h.get?_eq_or (dir ++ [name]) (by simp)
  · cases hnone.symm.trans hget
  · exact hsame.symm.trans hget

/-- Where a walk arrives although entries are taken away, it arrived before. -/
theorem Fewer.walk (follow : Bool) (dir : Location) (names : List Text) :
    (fs'.walk follow dir names).Within fs (fs.walk follow dir names) := by
  have hgoes := fs'.goes_walk follow dir names
  generalize fs'.walk follow dir names = w at hgoes ⊢
  induction hgoes with
  | done => exact .entry _ _ _
  | stay _ ih =>
    rw [walk_dot]
    exact ih
  | up _ ih =>
    rw [walk_dotDot]
    exact ih
  | tooLong | missing | blocked => exact .refused _ _
  | free hname =>
    exact .free _ _ fun mode content hfile => (Goes.file hname hfile).walk_eq
  | file hname hget =>
    rw [(Goes.file hname (h.get?_eq_some hget)).walk_eq]
    exact .entry _ _ _
  | link hname hget hfollow =>
    rw [(Goes.link hname (h.get?_eq_some hget) hfollow).walk_eq]
    exact .entry _ _ _
  | jump hname hget hfollow =>
    rw [(Goes.jump hname (h.get?_eq_some hget) hfollow).walk_eq]
    exact .jump _ _ _
  | down hname hget _ ih =>
    rw [walk_cons_of_isLookedUp hname, h.get?_eq_some hget]
    exact ih

/-- A walk that is interrupted by a link was interrupted by it before. -/
theorem Fewer.walk_jump {at_ : Location} {target : Text} {rest : List Text}
    (hwalk : fs'.walk follow dir names = .jump at_ target rest) :
    fs.walk follow dir names = .jump at_ target rest := by
  have hwithin := h.walk follow dir names
  rw [hwalk] at hwithin
  generalize fs.walk follow dir names = w at hwithin
  cases hwithin
  rfl

theorem Fewer.walkLinks (follow : Bool) (budget : Nat) (dir : Location) (names : List Text) :
    (Walk.ofResult (fs'.walkLinks follow budget dir names)).Within fs
      (Walk.ofResult (fs.walkLinks follow budget dir names)) := by
  have hgoes := fs'.goesOn_walkLinks follow budget dir names
  generalize fs'.walkLinks follow budget dir names = result at hgoes ⊢
  induction hgoes with
  | @ended budget dir names result hwalk =>
    have hwithin := h.walk follow dir names
    rw [hwalk] at hwithin
    exact hwithin.walkLinks budget
  | tooMany | nowhere => exact .refused _ _
  | behind hwalk htarget _ ih =>
    rw [walkLinks_behind (h.walk_jump hwalk) htarget]
    exact ih

theorem Fewer.resolve (follow : Bool) (p : Path) :
    (Walk.ofResult (fs'.resolve follow p)).Within fs (Walk.ofResult (fs.resolve follow p)) := by
  obtain ⟨e, hrefused⟩ | ⟨hne, hlength⟩ := resolve_cases p
  · rw [(hrefused fs' follow).1]
    exact .refused e _
  · rw [resolve_eq_walkLinks hne hlength, resolve_eq_walkLinks hne hlength, h.here]
    exact h.walkLinks _ _ _ _

end Fewer

/-- A path that leads to a free place leads to the file that is made there. -/
theorem resolve_set_of_free {at_ : Location} (h : fs.resolve follow p = .ok (.free at_))
    (mode : Nat) (content : Text) :
    (fs.set at_ (.file mode content)).resolve follow p =
      .ok (.entry at_ (.file mode content)) := by
  have hstands := stands_of_resolve h
  have hwithin := (fewer_set hstands (.file mode content)).resolve follow p
  rw [h] at hwithin
  refine hwithin.of_free ?_
  rw [get?_set _ _ _ _ hstands.belowRoot, if_pos rfl]

/-- A path that leads to a file leads to it when it has got another content. -/
theorem resolve_set_of_file {at_ : Location} {mode : Nat} {old : Text}
    (h : fs.resolve follow p = .ok (.entry at_ (.file mode old))) (new : Text) :
    (fs.set at_ (.file mode new)).resolve follow p = .ok (.entry at_ (.file mode new)) := by
  have hstands := stands_of_resolve h
  have hset := LoggedAt.set (List.mem_singleton_self at_) (hstands.get?_eq rfl) new
  rw [hset.resolve, h]
  change Except.ok (Place.entry at_ (((fs.set at_ (.file mode new)).get? at_).getD _)) = _
  rw [get?_set _ _ _ _ (hstands.belowRoot rfl), if_pos rfl]
  rfl

section Append

/-- A walk that enters a directory, and how it goes on behind it. -/
inductive Walk.Enters (fs : FileSystem) (follow : Bool) (goesOn : List Text → Walk) : Walk → Prop
  | arrived (at_ : Location) (e : Entry)
    (h : ∀ more ≠ [], goesOn more = fs.walk follow at_ more) :
    Enters fs follow goesOn (.arrived (.entry at_ e))
  | refused (e : FileError) (h : ∀ more ≠ [], goesOn more = .refused e) :
    Enters fs follow goesOn (.refused e)
  | jump (at_ : Location) (target : Text) (rest : List Text)
    (h : ∀ more ≠ [], goesOn more = .jump at_ target (rest ++ more)) :
    Enters fs follow goesOn (.jump at_ target (rest ++ [Path.dot]))

/-- Entering the directory that some names lead to decides how a walk behind it goes on. -/
theorem enters_walk (fs : FileSystem) (follow : Bool) (dir : Location) (names : List Text) :
    (fs.walk true dir (names ++ [Path.dot])).Enters fs follow
      fun more => fs.walk follow dir (names ++ more) := by
  induction names generalizing dir with
  | nil => exact .arrived dir _ fun more _ => rfl
  | cons name rest ih =>
    have hempty (more : List Text) (hmore : more ≠ []) : (rest ++ more).isEmpty = false := by
      simp [hmore]
    simp only [List.cons_append, walk]
    split
    · exact ih dir
    split
    · exact ih _
    split
    · exact .refused _ fun _ _ => rfl
    cases fs.get? (dir ++ [name]) with
    | none =>
      dsimp only
      rw [hempty _ (by simp), if_neg (by simp)]
      exact .refused _ fun more hmore => by rw [hempty more hmore, if_neg (by simp)]
    | some e =>
      cases e with
      | directory => exact ih _
      | file =>
        dsimp only
        rw [hempty _ (by simp), if_neg (by simp)]
        exact .refused _ fun more hmore => by rw [hempty more hmore, if_neg (by simp)]
      | link target =>
        dsimp only
        rw [hempty _ (by simp), if_neg (by simp)]
        exact .jump _ _ _ fun more hmore => if_neg (by simp [hempty more hmore])

/-- A walk that follows links goes on where it has entered a directory, or is refused there. -/
theorem walkLinks_append (fs : FileSystem) (follow : Bool) (budget : Nat) (dir : Location)
    (names : List Text) (hmore : more ≠ []) :
    (∃ e, fs.walkLinks true budget dir (names ++ [Path.dot]) = .error e ∧
        fs.walkLinks follow budget dir (names ++ more) = .error e) ∨
      ∃ at_ e left, fs.walkLinks true budget dir (names ++ [Path.dot]) = .ok (.entry at_ e) ∧
        fs.walkLinks follow budget dir (names ++ more) = fs.walkLinks follow left at_ more := by
  induction budget generalizing dir names with
  | zero =>
    have henters := fs.enters_walk follow dir names
    rw [walkLinks, walkLinks]
    generalize fs.walk true dir (names ++ [Path.dot]) = w at henters ⊢
    cases henters with
    | arrived at_ e hgoes =>
      refine .inr ⟨at_, e, 0, rfl, ?_⟩
      rw [hgoes more hmore, walkLinks]
    | refused e hgoes => exact .inl ⟨e, rfl, by rw [hgoes more hmore]⟩
    | jump at_ target rest hgoes => exact .inl ⟨_, rfl, by rw [hgoes more hmore]⟩
  | succ budget ih =>
    have henters := fs.enters_walk follow dir names
    rw [walkLinks, walkLinks]
    generalize fs.walk true dir (names ++ [Path.dot]) = w at henters ⊢
    cases henters with
    | arrived at_ e hgoes =>
      refine .inr ⟨at_, e, budget + 1, rfl, ?_⟩
      rw [hgoes more hmore, walkLinks]
    | refused e hgoes => exact .inl ⟨e, rfl, by rw [hgoes more hmore]⟩
    | jump at_ target rest hgoes =>
      rw [hgoes more hmore]
      dsimp only
      split
      · exact .inl ⟨_, rfl, rfl⟩
      · rw [← List.append_assoc, ← List.append_assoc]
        exact ih _ _

/-- Behind a directory that has been entered, a walk goes on from there. -/
theorem exists_walkLinks_append {budget : Nat} {dir at_ : Location} {names : List Text} {e : Entry}
    (hwalk : fs.walkLinks true budget dir (names ++ [Path.dot]) = .ok (.entry at_ e))
    (follow : Bool) (hmore : more ≠ []) : ∃ left,
      fs.walkLinks follow budget dir (names ++ more) = fs.walkLinks follow left at_ more := by
  obtain ⟨_, herror, -⟩ | ⟨_, _, left, hfound, hgoes⟩ :=
    fs.walkLinks_append follow budget dir names hmore
  · cases hwalk.symm.trans herror
  · cases hwalk.symm.trans hfound
    exact ⟨left, hgoes⟩

end Append

end FileSystem

end NativeBuild
