import NativeBuild.Proofs.Files.Policy

/-!
# File systems that are enumerated in another order

What a path leads to does not depend on the order in which a directory is enumerated. So directories
are made alike in two file systems that differ in that order only, files are written and removed
alike, and the two differ in nothing else afterwards.
-/
namespace NativeBuild

namespace FileSystem

/-- The same entries in another order, one for each location. -/
structure Reordered (fs fs' : FileSystem) : Prop where
  here : fs'.here = fs.here
  perm : fs.entries.Perm fs'.entries
  nodup : (fs.entries.map Prod.fst).Nodup

section Entries

variable {es es' : List (Location × Entry)} {l : Location} {e : Entry}

/-- Where no location is listed twice, what is found is what is listed. -/
theorem find?_eq_some_iff (hnodup : (es.map Prod.fst).Nodup) : find? l es = some e ↔ (l, e) ∈ es := by
  induction es with
  | nil => simp [find?]
  | cons first rest ih =>
    obtain ⟨at_, entry⟩ := first
    rw [List.map_cons, List.nodup_cons] at hnodup
    rw [find?, List.mem_cons, Prod.mk.injEq]
    by_cases hl : at_ = l
    · subst hl
      have hnot : (at_, e) ∉ rest := fun hmem => hnodup.1 (List.mem_map.mpr ⟨_, hmem, rfl⟩)
      rw [if_pos rfl, Option.some.injEq]
      simp only [hnot, true_and, or_false, eq_comm]
    · rw [if_neg hl, ih hnodup.2]
      simp [Ne.symm hl]

theorem find?_eq_of_perm (h : es.Perm es') (hnodup : (es.map Prod.fst).Nodup) (l : Location) :
    find? l es' = find? l es := by
  have hnodup' : (es'.map Prod.fst).Nodup := (h.map Prod.fst).nodup hnodup
  ext e
  rw [find?_eq_some_iff hnodup, find?_eq_some_iff hnodup', h.mem_iff]

/-- An entry that is placed is listed in front of the others, up to the order. -/
theorem place_perm (hnodup : (es.map Prod.fst).Nodup) :
    (place l e es).Perm ((l, e) :: es.filter fun other => other.1 ≠ l) := by
  induction es with
  | nil => rfl
  | cons first rest ih =>
    obtain ⟨at_, entry⟩ := first
    rw [List.map_cons, List.nodup_cons] at hnodup
    rw [place]
    split
    · next hl =>
      have hrest : ∀ other ∈ rest, other.1 ≠ l := by
        rintro other hother rfl
        exact hnodup.1 (List.mem_map.mpr ⟨other, hother, hl.symm⟩)
      rw [List.filter_cons_of_neg (by simp [hl]), List.filter_eq_self.mpr (by simpa using hrest), hl]
    · next hl =>
      rw [List.filter_cons_of_pos (by simp [hl])]
      exact ((ih hnodup.2).cons _).trans (.swap _ _ _)

theorem nodup_place (hnodup : (es.map Prod.fst).Nodup) : ((place l e es).map Prod.fst).Nodup := by
  refine ((place_perm hnodup).map Prod.fst).symm.nodup ?_
  rw [List.map_cons, List.nodup_cons]
  refine ⟨?_, hnodup.sublist (List.filter_sublist.map _)⟩
  rintro hmem
  obtain ⟨other, hother, rfl⟩ := List.mem_map.mp hmem
  simpa using (List.mem_filter.mp hother).2

end Entries

section Walks

variable {fs fs' : FileSystem} (hget : ∀ l, fs'.get? l = fs.get? l) (follow : Bool) (budget : Nat)
  (dir : Location) (names : List Text)
include hget

/-- A walk looks at nothing but what stands at locations. -/
theorem walk_congr : fs'.walk follow dir names = fs.walk follow dir names := by
  induction names generalizing dir with
  | nil => simp only [walk, hget]
  | cons name rest ih => simp only [walk, hget, ih]

theorem walkLinks_congr :
    fs'.walkLinks follow budget dir names = fs.walkLinks follow budget dir names := by
  induction budget generalizing dir names with
  | zero => rw [walkLinks, walkLinks, walk_congr hget]
  | succ budget ih =>
    rw [walkLinks, walkLinks, walk_congr hget]
    simp only [ih]

end Walks

namespace Reordered

variable {fs fs' : FileSystem} (h : Reordered fs fs') (p : Path)
include h

theorem get?_eq (l : Location) : fs'.get? l = fs.get? l := by
  unfold get?
  rw [find?_eq_of_perm h.perm h.nodup]

/-- The same names are in a directory. -/
theorem names (dir : Location) : (fs.names dir).Perm (fs'.names dir) := h.perm.filterMap _

theorem resolve_eq (follow : Bool) : fs'.resolve follow p = fs.resolve follow p := by
  unfold resolve
  simp only [walkLinks_congr h.get?_eq, h.here]

theorem resolveLeaf_eq : fs'.resolveLeaf p = fs.resolveLeaf p := by
  unfold resolveLeaf
  simp only [walkLinks_congr h.get?_eq, h.here]

theorem status_eq : fs'.status p = fs.status p := by
  unfold status entryAt
  rw [h.resolve_eq]

theorem isDirectory_eq : fs'.isDirectory p = fs.isDirectory p := by
  unfold isDirectory
  rw [h.status_eq]

theorem isFile_eq : fs'.isFile p = fs.isFile p := by
  unfold isFile
  rw [h.status_eq]

/-- Every file reads the same. -/
theorem read_eq : fs'.read p = fs.read p := by
  unfold read
  rw [h.status_eq]

/-- A directory is listed with the same names. -/
theorem exists_list {names : List Text} (hlist : fs.list p = .ok names) :
    ∃ names', fs'.list p = .ok names' ∧ names.Perm names' := by
  unfold list at hlist ⊢
  rw [h.status_eq]
  cases hstatus : fs.status p with
  | error e =>
    rw [hstatus] at hlist
    cases hlist
  | ok found =>
    obtain ⟨at_, entry⟩ := found
    rw [hstatus] at hlist
    cases entry with
    | directory mode =>
      obtain rfl := Except.ok.inj hlist
      exact ⟨fs'.names at_, rfl, h.names at_⟩
    | file | link => cases hlist

theorem list_eq_error {e : FileError} (hlist : fs.list p = .error e) : fs'.list p = .error e := by
  unfold list at hlist ⊢
  rw [h.status_eq]
  cases hstatus : fs.status p with
  | error e' =>
    rw [hstatus] at hlist
    exact hlist
  | ok found =>
    obtain ⟨at_, entry⟩ := found
    rw [hstatus] at hlist
    cases entry with
    | directory mode => cases hlist
    | file | link => exact hlist

omit p in
theorem set (l : Location) (e : Entry) : Reordered (fs.set l e) (fs'.set l e) where
  here := h.here
  perm := by
    have hnodup' : (fs'.entries.map Prod.fst).Nodup := (h.perm.map Prod.fst).nodup h.nodup
    exact (place_perm h.nodup).trans
      (((h.perm.filter _).cons _).trans (place_perm hnodup').symm)
  nodup := nodup_place h.nodup

omit p in
theorem erase (l : Location) : Reordered (fs.erase l) (fs'.erase l) where
  here := h.here
  perm := h.perm.filter _
  nodup := h.nodup.sublist (List.filter_sublist.map _)

end Reordered

end FileSystem

namespace FileAction

open FileSystem

/-- Two actions end alike in two file systems, and change them alike. -/
structure Alike {α : Type} (fs fs' : FileSystem) (a a' : FileAction α) : Prop where
  result : (a'.run fs').run.1 = (a.run fs).run.1
  files : Reordered (a.run fs).run.2 (a'.run fs').run.2

variable {α β : Type} {fs fs' : FileSystem}

theorem Alike.sameUpTo {a a' : FileAction α} (h : Alike fs fs' a a') :
    SameUpTo Reordered (a.run fs).run (a'.run fs').run := ⟨h.result, h.files⟩

theorem Alike.pure (h : Reordered fs fs') (x : α) :
    Alike fs fs' (pure x : FileAction α) (pure x) := ⟨rfl, h⟩

theorem Alike.throw (h : Reordered fs fs') (e : FileError) :
    Alike fs fs' (throw e : FileAction α) (throw e) := ⟨rfl, h⟩

theorem Alike.bind {a a' : FileAction α} {k k' : α → FileAction β} (ha : Alike fs fs' a a')
    (hk : ∀ x between between', Reordered between between' → Alike between between' (k x) (k' x)) :
    Alike fs fs' (a >>= k) (a' >>= k') := by
  have hbind := ha.sameUpTo.bind fun x between between' hbetween =>
    (hk x between between' hbetween).sameUpTo
  exact ⟨hbind.result, hbind.states⟩

theorem Alike.forM {f : Path → FileAction Unit}
    (hf : ∀ p fs fs', Reordered fs fs' → Alike fs fs' (f p) (f p)) (h : Reordered fs fs')
    (all : List Path) : Alike fs fs' (all.forM f) (all.forM f) := by
  induction all generalizing fs fs' with
  | nil => exact .pure h ()
  | cons p rest ih => exact (hf p fs fs' h).bind fun _ _ _ hbetween => ih hbetween

theorem Alike.get_bind {k k' : FileSystem → FileAction β} (hk : Alike fs fs' (k fs) (k' fs')) :
    Alike fs fs' (get >>= k) (get >>= k') := ⟨hk.result, hk.files⟩

theorem Alike.set {after after' : FileSystem} (h : Reordered after after') :
    Alike fs fs' (set after : FileAction PUnit) (set after') := ⟨rfl, h⟩

variable (h : Reordered fs fs')
include h

/-- A view that does not depend on the order. -/
theorem Alike.ask {view : FileSystem → Except FileError α} (hview : view fs' = view fs) :
    Alike fs fs' (ask view) (ask view) := by
  refine ⟨?_, ?_⟩
  · rw [run_ask, run_ask, hview]
  · rw [run_ask, run_ask]
    exact h

variable (p : Path)

theorem alike_makeDirectory (mode : Nat) :
    Alike fs fs' (makeDirectory p mode) (makeDirectory p mode) := by
  refine .get_bind ((Alike.ask h (h.resolveLeaf_eq p)).bind fun leaf between between' hbetween => ?_)
  cases leaf with
  | root => exact .throw hbetween _
  | dot => exact .throw hbetween _
  | dotDot => exact .throw hbetween _
  | name at_ slashed =>
    dsimp only
    rw [h.get?_eq]
    split
    · exact .throw hbetween _
    · exact .set (h.set _ _)

theorem alike_ensureOne : Alike fs fs' (ensureOne p) (ensureOne p) := by
  refine .get_bind ?_
  obtain ⟨hresult, hfiles⟩ := alike_makeDirectory h p 0o777
  cases hrun : ((makeDirectory p).run fs).run with
  | mk result after =>
  cases hrun' : ((makeDirectory p).run fs').run with
  | mk result' after' =>
    rw [hrun, hrun'] at hresult hfiles
    obtain rfl : result' = result := hresult
    cases result' with
    | ok => exact .set hfiles
    | error e =>
      dsimp only
      rw [h.isDirectory_eq]
      split
      · exact .pure h _
      · exact .throw h _

theorem alike_missingAncestors (fuel : Nat) (found : List Path) :
    Alike fs fs' (missingAncestors fuel p found) (missingAncestors fuel p found) := by
  induction fuel generalizing p found with
  | zero => exact .throw h _
  | succ fuel ih =>
    unfold missingAncestors
    dsimp only
    generalize (if Path.fileName p = Path.dot ∨ Path.fileName p = Path.dotDot then found
      else p :: found) = longer
    split
    · exact .throw h _
    split
    · exact .pure h _
    refine .get_bind ?_
    rw [h.status_eq]
    split
    · exact .pure h _
    · exact .throw h _
    · split
      · exact ih _ _
      · exact .throw h _

/-- Directories are made alike. -/
theorem alike_makeDirectories : Alike fs fs' (makeDirectories p) (makeDirectories p) := by
  unfold makeDirectories
  dsimp only
  split
  · exact .throw h _
  refine .get_bind ?_
  rw [h.status_eq]
  split
  · exact .pure h _
  · exact .throw h _
  · split
    · exact .throw h _
    · exact (alike_missingAncestors h _ _ _).bind fun all _ _ hbetween =>
        .forM (fun q _ _ hfs => alike_ensureOne hfs q) hbetween all

/-- A file, a link or an empty directory is removed alike. -/
theorem alike_remove : Alike fs fs' (remove p) (remove p) := by
  refine .get_bind ((Alike.ask h (h.resolveLeaf_eq p)).bind fun leaf between between' hbetween => ?_)
  cases leaf with
  | root => exact .throw hbetween _
  | dot => exact .throw hbetween _
  | dotDot => exact .throw hbetween _
  | name at_ slashed =>
    dsimp only
    rw [h.get?_eq, (h.names at_).isEmpty_eq]
    cases fs.get? at_ with
    | none => exact .throw hbetween _
    | some entry =>
      cases entry with
      | directory mode =>
        dsimp only
        split
        · exact .set (h.erase at_)
        · exact .throw hbetween _
      | file | link =>
        dsimp only
        split
        · exact .throw hbetween _
        · exact .set (h.erase at_)

theorem alike_removeIfThere : Alike fs fs' (removeIfThere p) (removeIfThere p) := by
  refine .get_bind ?_
  obtain ⟨hresult, hfiles⟩ := alike_remove h p
  cases hrun : ((remove p).run fs).run with
  | mk result after =>
  cases hrun' : ((remove p).run fs').run with
  | mk result' after' =>
    rw [hrun, hrun'] at hresult hfiles
    obtain rfl : result' = result := hresult
    cases result' with
    | ok => exact .set hfiles
    | error e =>
      cases e with
      | notFound => exact .pure h _
      | _ => exact .throw h _

theorem alike_writable (fresh : Bool) : Alike fs fs' (writable p fresh) (writable p fresh) := by
  refine (Alike.ask h (h.resolveLeaf_eq p)).bind fun leaf between between' hbetween => ?_
  cases leaf with
  | root => exact .throw hbetween _
  | dot => exact .throw hbetween _
  | dotDot => exact .throw hbetween _
  | name at_ slashed =>
    cases slashed with
    | false =>
      refine (Alike.ask hbetween (hbetween.resolve_eq p _)).bind fun place _ _ hlast => ?_
      cases place with
      | free at_ => exact .pure hlast _
      | entry at_ entry =>
        dsimp only
        split
        · exact .throw hlast _
        split
        · exact .throw hlast _
        · exact .pure hlast _
    | true =>
      refine .get_bind ?_
      rw [hbetween.get?_eq]
      split
      · exact .throw hbetween _
      · exact .throw hbetween _

/-- A file is written alike. -/
theorem alike_write (content : Text) (fresh : Bool) :
    Alike fs fs' (write p content fresh) (write p content fresh) := by
  refine (alike_writable h p fresh).bind fun found between between' hbetween => ?_
  obtain ⟨at_, before⟩ := found
  exact ⟨rfl, hbetween.set at_ _⟩

end FileAction

end NativeBuild
