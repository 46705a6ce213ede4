import NativeBuild.Dictionary

/-!
# Dictionaries made from entries

Insertion keeps a dictionary sorted, and a sorted dictionary is determined by what is found in it.
So the dictionary made from some entries is the only sorted one in which the last entry of each key
is found, and entries with different keys make the same dictionary in any order.
-/
namespace NativeBuild.Dictionary

variable {α : Type}

/-- The entries stand by increasing key; no key stands twice. -/
def IsSorted (d : Dictionary α) : Prop := d.Pairwise fun e f => e.1 < f.1

@[simp] theorem isSorted_nil : IsSorted ([] : Dictionary α) := .nil

theorem get?_insert (key other : Text) (value : α) (d : Dictionary α) :
    get? other (insert key value d) = if other = key then some value else get? other d := by
  by_cases h : other = key
  · subst h
    simp
  · rw [if_neg h, get?_insert_of_ne h]

theorem get?_append (key : Text) (d e : Dictionary α) :
    get? key (d ++ e) = (get? key d).or (get? key e) := by
  induction d with
  | nil => simp [get?]
  | cons entry d ih =>
    obtain ⟨k, v⟩ := entry
    by_cases h : key = k <;> simp [get?, h, ih]

theorem get?_filter (key : Text) (keep : Text → Bool) (d : Dictionary α) :
    get? key (d.filter fun e => keep e.1) = if keep key then get? key d else none := by
  induction d with
  | nil => simp [get?]
  | cons entry d ih =>
    obtain ⟨k, v⟩ := entry
    by_cases h : key = k
    · subst h
      cases hkeep : keep key <;> simp [get?, hkeep, ih]
    · cases hkeep : keep k <;> simp [get?, hkeep, h, ih]

theorem mem_of_get? {key : Text} {value : α} {d : Dictionary α} (h : get? key d = some value) :
    (key, value) ∈ d := by
  induction d with
  | nil => simp [get?] at h
  | cons entry d ih =>
    obtain ⟨k, v⟩ := entry
    by_cases hk : key = k
    · subst hk
      have hv : v = value := by simpa [get?] using h
      simp [hv]
    · have hrest : get? key d = some value := by simpa [get?, hk] using h
      exact List.mem_cons_of_mem _ (ih hrest)

theorem exists_get?_of_mem {key : Text} {value : α} {d : Dictionary α} (h : (key, value) ∈ d) :
    ∃ other, get? key d = some other := by
  induction d with
  | nil => simp at h
  | cons entry d ih =>
    obtain ⟨k, v⟩ := entry
    by_cases hk : key = k
    · exact ⟨v, by simp [get?, hk]⟩
    · obtain heq | h := List.mem_cons.mp h
      · exact absurd (congrArg Prod.fst heq) hk
      · simpa [get?, hk] using ih h

theorem get?_of_mem {key : Text} {value : α} {d : Dictionary α} (hd : d.IsSorted)
    (h : (key, value) ∈ d) : get? key d = some value := by
  induction d with
  | nil => simp at h
  | cons entry d ih =>
    obtain ⟨k, v⟩ := entry
    obtain ⟨hfirst, hrest⟩ := List.pairwise_cons.mp hd
    obtain heq | h := List.mem_cons.mp h
    · obtain ⟨rfl, rfl⟩ := Prod.mk.inj heq
      simp [get?]
    · have hlt : k < key := hfirst _ h
      have hne : key ≠ k := by
        rintro rfl
        exact List.lt_irrefl _ hlt
      simpa [get?, hne] using ih hrest h

theorem mem_insert {key : Text} {value : α} {d : Dictionary α} {e : Text × α}
    (h : e ∈ insert key value d) : e = (key, value) ∨ e ∈ d := by
  induction d with
  | nil => simpa [insert] using h
  | cons entry d ih =>
    obtain ⟨k, v⟩ := entry
    simp only [insert] at h
    split at h
    · obtain h | h := List.mem_cons.mp h
      · exact .inl h
      · exact .inr (List.mem_cons_of_mem _ h)
    · split at h
      · exact List.mem_cons.mp h
      · obtain rfl | h := List.mem_cons.mp h
        · exact .inr List.mem_cons_self
        · exact (ih h).imp_right (List.mem_cons_of_mem _)

theorem IsSorted.insert {d : Dictionary α} (hd : d.IsSorted) (key : Text) (value : α) :
    (d.insert key value).IsSorted := by
  induction d with
  | nil => exact List.pairwise_singleton _ _
  | cons entry d ih =>
    obtain ⟨k, v⟩ := entry
    obtain ⟨hfirst, hrest⟩ := List.pairwise_cons.mp hd
    simp only [Dictionary.insert]
    split
    · next heq =>
      subst heq
      exact List.pairwise_cons.mpr ⟨hfirst, hrest⟩
    · next hne =>
      split
      · next hlt =>
        refine List.pairwise_cons.mpr ⟨fun e he => ?_, hd⟩
        obtain rfl | he := List.mem_cons.mp he
        · exact hlt
        · exact List.lt_trans hlt (hfirst e he)
      · next hnot =>
        refine List.pairwise_cons.mpr ⟨fun e he => ?_, ih hrest⟩
        obtain rfl | he := mem_insert he
        · have hcases := Std.lt_trichotomy key k
          exact (hcases.resolve_left hnot).resolve_left hne
        · exact hfirst e he

/-- Sorted dictionaries in which the same is found are equal. -/
theorem IsSorted.ext {d e : Dictionary α} (hd : d.IsSorted) (he : e.IsSorted)
    (h : ∀ key, get? key d = get? key e) : d = e := by
  have hle : ∀ {d e : Dictionary α}, d.IsSorted → (∀ key, get? key d = get? key e) →
      ∀ entry ∈ d, entry ∈ e := by
    intro d e hd h entry hmem
    exact mem_of_get? ((h entry.1).symm.trans (get?_of_mem hd hmem))
  have hnodup : ∀ {d : Dictionary α}, d.IsSorted → d.Nodup := by
    intro d hd
    refine hd.imp fun {e f} hlt heq => ?_
    subst heq
    exact List.lt_irrefl _ hlt
  have hperm : d.Perm e :=
    (List.perm_ext_iff_of_nodup (hnodup hd) (hnodup he)).mpr fun entry =>
      ⟨hle hd h entry, hle he (fun key => (h key).symm) entry⟩
  refine hperm.eq_of_pairwise (fun a b _ _ hab hba => ?_) hd he
  exact absurd hba (List.lt_asymm hab)

theorem isSorted_foldl_insert {d : Dictionary α} (hd : d.IsSorted) (entries : List (Text × α)) :
    (entries.foldl (fun d e => d.insert e.1 e.2) d).IsSorted := by
  induction entries generalizing d with
  | nil => exact hd
  | cons e entries ih => exact ih (hd.insert e.1 e.2)

theorem isSorted_ofList (entries : List (Text × α)) : (ofList entries).IsSorted :=
  isSorted_foldl_insert isSorted_nil entries

theorem get?_foldl_insert (key : Text) (d : Dictionary α) (entries : List (Text × α)) :
    get? key (entries.foldl (fun d e => d.insert e.1 e.2) d) =
      (get? key entries.reverse).or (get? key d) := by
  induction entries generalizing d with
  | nil => simp [get?]
  | cons e entries ih =>
    rw [List.foldl_cons, ih, List.reverse_cons, get?_append, get?_insert, Option.or_assoc]
    by_cases h : key = e.1 <;> simp [get?, h]

/-- The last entry of a key wins. -/
theorem get?_ofList (key : Text) (entries : List (Text × α)) :
    get? key (ofList entries) = get? key entries.reverse := by
  rw [ofList, get?_foldl_insert]
  simp [get?]

/-- A dictionary keeps the last of the entries of each key, and nothing else. -/
structure Keeps (d : Dictionary α) (entries : List (Text × α)) : Prop where
  sorted : d.IsSorted
  last : ∀ key, get? key d = get? key entries.reverse

theorem keeps_ofList (entries : List (Text × α)) : (ofList entries).Keeps entries :=
  ⟨isSorted_ofList entries, fun key => get?_ofList key entries⟩

theorem Keeps.mem {d : Dictionary α} {entries : List (Text × α)} (h : d.Keeps entries)
    {e : Text × α} (he : e ∈ d) : e ∈ entries := by
  obtain ⟨key, value⟩ := e
  have hget : get? key entries.reverse = some value := by
    rw [← h.last, get?_of_mem h.sorted he]
  exact List.mem_reverse.mp (mem_of_get? hget)

theorem Keeps.eq_ofList {d : Dictionary α} {entries : List (Text × α)} (h : d.Keeps entries) :
    d = ofList entries :=
  h.sorted.ext (isSorted_ofList entries) fun key =>
    (h.last key).trans (get?_ofList key entries).symm

/-- The entries of a dictionary make it again, in whatever order they come. -/
theorem ofList_of_perm {d : Dictionary α} (hd : d.IsSorted) {entries : List (Text × α)}
    (h : entries.Perm d) : ofList entries = d := by
  refine (isSorted_ofList entries).ext hd fun key => ?_
  rw [get?_ofList]
  have hmem : ∀ value, (key, value) ∈ entries.reverse ↔ (key, value) ∈ d := by
    intro value
    rw [List.mem_reverse, h.mem_iff]
  cases hlast : get? key entries.reverse with
  | some value => exact (get?_of_mem hd ((hmem value).mp (mem_of_get? hlast))).symm
  | none =>
    cases hfound : get? key d with
    | none => rfl
    | some value =>
      obtain ⟨other, hother⟩ := exists_get?_of_mem ((hmem value).mpr (mem_of_get? hfound))
      rw [hlast] at hother
      cases hother

theorem mem_sorted {text : Text} {texts : List Text} : text ∈ sorted texts ↔ text ∈ texts := by
  unfold sorted
  constructor
  · intro h
    obtain ⟨⟨key, value⟩, hmem, rfl⟩ := List.mem_map.mp h
    have hget := get?_of_mem (isSorted_ofList _) hmem
    rw [get?_ofList] at hget
    obtain ⟨other, hother, heq⟩ := List.mem_map.mp (List.mem_reverse.mp (mem_of_get? hget))
    exact (Prod.mk.inj heq).1 ▸ hother
  · intro h
    have hentry : (text, ()) ∈ (texts.map (·, ())).reverse :=
      List.mem_reverse.mpr (List.mem_map_of_mem h)
    obtain ⟨value, hget⟩ := exists_get?_of_mem hentry
    rw [← get?_ofList] at hget
    exact List.mem_map.mpr ⟨_, mem_of_get? hget, rfl⟩

/-- Texts are sorted without repetitions. -/
theorem pairwise_sorted (texts : List Text) : (sorted texts).Pairwise (· < ·) :=
  List.pairwise_map.mpr (isSorted_ofList _)

theorem mem_keys_iff {key : Text} {d : Dictionary α} :
    key ∈ d.map (·.1) ↔ (get? key d).isSome = true := by
  rw [List.mem_map, Option.isSome_iff_exists]
  constructor
  · rintro ⟨e, he, rfl⟩
    exact exists_get?_of_mem he
  · rintro ⟨value, hvalue⟩
    exact ⟨_, mem_of_get? hvalue, rfl⟩

theorem get?_eq_none {key : Text} {d : Dictionary α} (h : key ∉ d.map (·.1)) :
    get? key d = none := by
  rw [← Option.not_isSome_iff_eq_none]
  exact fun hsome => h (mem_keys_iff.mpr hsome)

/-- No key of a sorted dictionary stands twice. -/
theorem IsSorted.nodup_keys {d : Dictionary α} (hd : d.IsSorted) : (d.map (·.1)).Nodup := by
  refine List.pairwise_map.mpr (hd.imp fun {e f} hlt heq => ?_)
  rw [heq] at hlt
  exact List.lt_irrefl _ hlt

theorem nodup_sorted (texts : List Text) : (sorted texts).Nodup :=
  (isSorted_ofList _).nodup_keys

/-- In entries that are made from things, the first thing with the key is found. -/
theorem get?_map {β : Type} (key : Text) (keyOf : β → Text) (valueOf : β → α) (things : List β) :
    get? key (things.map fun t => (keyOf t, valueOf t)) =
      (things.find? (keyOf · = key)).map valueOf := by
  induction things with
  | nil => rfl
  | cons t things ih =>
    rw [List.map_cons, get?, List.find?_cons, ih]
    by_cases h : key = keyOf t
    · simp [h]
    · simp [h, Ne.symm h]

/-- Texts that are the keys of a dictionary are sorted as they stand there. -/
theorem sorted_eq_keys {d : Dictionary α} (hd : d.IsSorted) {texts : List Text}
    (h : ∀ text, text ∈ texts ↔ (get? text d).isSome = true) : sorted texts = d.map (·.1) := by
  have hmem : ∀ text, text ∈ sorted texts ↔ text ∈ d.map (·.1) := by
    intro text
    rw [mem_sorted, h, mem_keys_iff]
  have hperm := (List.perm_ext_iff_of_nodup (nodup_sorted texts) hd.nodup_keys).mpr hmem
  exact hperm.eq_of_pairwise (fun a b _ _ hab hba => absurd hba (List.lt_asymm hab))
    (pairwise_sorted texts) (List.pairwise_map.mpr hd)

/-- Texts are sorted alike in any order, and however often each of them stands there. -/
theorem sorted_congr {texts texts' : List Text} (h : ∀ text, text ∈ texts ↔ text ∈ texts') :
    sorted texts = sorted texts' := by
  refine sorted_eq_keys (isSorted_ofList _) fun text => ?_
  rw [h, ← mem_sorted, ← mem_keys_iff]
  rfl

end NativeBuild.Dictionary
