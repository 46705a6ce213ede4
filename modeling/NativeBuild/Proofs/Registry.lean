import Mathlib.Data.Finset.Card
import Mathlib.Data.Finset.Image
import Mathlib.Data.List.Find
import NativeBuild.Proofs.Dictionary
import NativeBuild.Proofs.Log.Places
import NativeBuild.Proofs.Text
import NativeBuild.Toolchain

/-!
# What a registry finds

The four fields of a toolchain are joined to one key. As long as no separator is in the fields in
front, the key tells the fields apart, and a registry keeps the toolchain that was registered last
for each host and target, whatever the order of registrations and lookups. With a separator in a
field two pairs of host and target can share a key, and then one takes the place of the other. A
sysroot that a lookup has made ready is known to be ready until its key is registered again.
-/
namespace NativeBuild

namespace Dictionary

variable {α : Type}

/-- A dictionary that is made from entries is as long as they have different keys. -/
theorem length_ofList (entries : List (Text × α)) :
    (ofList entries).length = (entries.map (·.1)).toFinset.card := by
  have hkeys : (entries.map (·.1)).toFinset = ((ofList entries).map (·.1)).toFinset := by
    ext key
    rw [List.mem_toFinset, List.mem_toFinset, mem_keys_iff (d := ofList entries), get?_ofList,
      ← mem_keys_iff, List.map_reverse, List.mem_reverse]
  rw [hkeys, List.toFinset_card_of_nodup (isSorted_ofList entries).nodup_keys, List.length_map]

end Dictionary

namespace Toolchain

/-- The host and the target that a toolchain is for, in lower case. -/
structure Identity where
  hostPlatform : Text
  hostArch : Text
  targetPlatform : Text
  targetArch : Text
  deriving DecidableEq

/-- Fields that are the same up to the case of letters have one identity. -/
def identityOf (hostPlatform hostArch targetPlatform targetArch : Text) : Identity :=
  ⟨Text.toLower hostPlatform, Text.toLower hostArch, Text.toLower targetPlatform,
    Text.toLower targetArch⟩

def identity (t : Toolchain) : Identity :=
  identityOf t.hostPlatform t.hostArch t.targetPlatform t.targetArch

namespace Identity

/-- The fields with a separator between them. -/
def joined (i : Identity) : Text :=
  i.hostPlatform ++ byte ',' :: (i.hostArch ++ byte ',' :: (i.targetPlatform ++ byte ',' ::
    i.targetArch))

/-- The separator is in none of the fields in front of another. -/
structure Clear (i : Identity) : Prop where
  hostPlatform : byte ',' ∉ i.hostPlatform
  hostArch : byte ',' ∉ i.hostArch
  targetPlatform : byte ',' ∉ i.targetPlatform

instance (i : Identity) : Decidable i.Clear :=
  decidable_of_iff
    (byte ',' ∉ i.hostPlatform ∧ byte ',' ∉ i.hostArch ∧ byte ',' ∉ i.targetPlatform)
    ⟨fun h => ⟨h.1, h.2.1, h.2.2⟩, fun h => ⟨h.1, h.2, h.3⟩⟩

theorem Clear.eq_of_joined {i j : Identity} (hi : i.Clear) (hj : j.Clear)
    (h : i.joined = j.joined) : i = j := by
  obtain ⟨hplatform, h⟩ := Text.append_cons_inj hi.hostPlatform hj.hostPlatform h
  obtain ⟨harch, h⟩ := Text.append_cons_inj hi.hostArch hj.hostArch h
  obtain ⟨htarget, htargetArch⟩ := Text.append_cons_inj hi.targetPlatform hj.targetPlatform h
  cases i
  cases j
  simp_all

end Identity

/-- With a separator in the way two identities share a key. -/
example : key (utf8 "linux") (utf8 "x86_64") (utf8 "web,gl") (utf8 "x")
    = key (utf8 "linux") (utf8 "x86_64") (utf8 "web") (utf8 "gl,x") := by
  decide +kernel

theorem key_eq (hostPlatform hostArch targetPlatform targetArch : Text) :
    key hostPlatform hostArch targetPlatform targetArch
      = (identityOf hostPlatform hostArch targetPlatform targetArch).joined := by
  simp [key, Identity.joined, identityOf, show utf8 "," = [byte ','] by decide]

theorem ownKey_eq (t : Toolchain) : t.ownKey = t.identity.joined := key_eq ..

section Ready

/-- A sysroot that was ready once is not looked at again. Anything else is asked every time. -/
def StaysReady (t : Toolchain) : Prop := ∃ root tools, t.kind = .sysroot root tools

/-- A sysroot is ready if its directories are there. -/
theorem run_makeReady_of_sysroot {t : Toolchain} {root tools : Path}
    (h : t.kind = .sysroot root tools) (s : Session) :
    (t.makeReady.run s).1 =
      (s.files.isDirectory root && (decide (tools = []) || s.files.isDirectory tools)) := by
  unfold makeReady
  rw [h]
  dsimp only
  rw [Session.run_get_bind]
  cases s.files.isDirectory root with
  | false => rfl
  | true =>
    by_cases hempty : tools = []
    · subst hempty
      rfl
    · cases s.files.isDirectory tools <;> simp [hempty] <;> rfl

/-- Sessions with the same directories make the same toolchains ready. -/
theorem run_makeReady_congr {s s' : Session}
    (h : ∀ p, s.files.isDirectory p = s'.files.isDirectory p) (t : Toolchain) :
    (t.makeReady.run s).1 = (t.makeReady.run s').1 := by
  cases hkind : t.kind with
  | fixed arguments ready =>
    have hrun (s : Session) : (t.makeReady.run s).1 = ready := by
      unfold makeReady
      rw [hkind]
      rfl
    rw [hrun, hrun]
  | sysroot root tools =>
    rw [run_makeReady_of_sysroot hkind, run_makeReady_of_sysroot hkind, h, h]

end Ready

end Toolchain

namespace Registry

open Toolchain (Identity identityOf)

/-- What initializing a registered toolchain gives: one that is known to be ready stays so. -/
def starts (r : Registry) (s : Session) (t : Toolchain) : Bool :=
  (r.ready.get? t.ownKey).isSome || (t.makeReady.run s).1

/-- A registry that is new at first, and then gets toolchains one after another, with lookups in
between. -/
inductive Holds : List Toolchain → Registry → Prop
  | new (resolver : Host.Resolver) (lists : Bool) : Holds [] { resolver, lists }
  | register {ts r} (h : Holds ts r) (t : Toolchain) (s : Session) :
    Holds (ts ++ [t]) ((r.register t).run s).1
  | resolve {ts r} (h : Holds ts r) (probe : Host.Probe) (s : Session) :
    Holds ts ((r.resolve probe).run s).1.2
  | find {ts r} (h : Holds ts r) (probe : Host.Probe) (platform arch : Text) (s : Session) :
    Holds ts ((r.find probe platform arch).run s).1.2

variable {ts : List Toolchain} {r : Registry} {s : Session}

theorem register_eq (r : Registry) (t : Toolchain) (s : Session) :
    ((r.register t).run s).1 = r.insert t := by
  unfold register
  cases r.lists <;> cases r.entries.get? t.ownKey <;> rfl

theorem resolve_keeps (r : Registry) (probe : Host.Probe) (s : Session) :
    ((r.resolve probe).run s).1.2.entries = r.entries ∧
      ((r.resolve probe).run s).1.2.ready = r.ready := ⟨rfl, rfl⟩

section Find

variable {probe : Host.Probe} {host : Host} (platform arch : Text)

/-- A lookup hands out what is under the key, if initializing it succeeds, and remembers that. -/
theorem find_of_host (h : ((r.resolve probe).run s).1.1 = some host) :
    ((r.find probe platform arch).run s).1.2.entries = r.entries ∧
      (((r.find probe platform arch).run s).1.1 =
        (r.entries.get? (Toolchain.key host.platform host.arch platform arch)).filter fun t =>
          (r.ready.get? (Toolchain.key host.platform host.arch platform arch)).isSome
            || (t.makeReady.run ((r.resolve probe).run s).2).1) ∧
      ∀ key, (((r.find probe platform arch).run s).1.2.ready.get? key).isSome = true ↔
        (r.ready.get? key).isSome = true ∨
          key = Toolchain.key host.platform host.arch platform arch ∧
            ∃ t ∈ r.entries.get? key, t.StaysReady ∧
              (t.makeReady.run ((r.resolve probe).run s).2).1 = true := by
  obtain ⟨hentries, hready⟩ := resolve_keeps r probe s
  unfold find
  rw [Session.run_bind]
  generalize (r.resolve probe).run s = resolved at h hentries hready ⊢
  obtain ⟨⟨found, r'⟩, s'⟩ := resolved
  dsimp only at h hentries hready ⊢
  rw [h, ← hentries, ← hready]
  dsimp only
  generalize hasked : Toolchain.key host.platform host.arch platform arch = asked
  cases hfound : r'.entries.get? asked with
  | none =>
    refine ⟨rfl, rfl, fun key => (or_iff_left ?_).symm⟩
    rintro ⟨rfl, t, ht, -⟩
    cases hfound.symm.trans ht
  | some t =>
    dsimp only
    cases hknown : (r'.ready.get? asked).isSome with
    | true =>
      refine ⟨rfl, rfl, fun key => (or_iff_left_of_imp ?_).symm⟩
      rintro ⟨rfl, -⟩
      exact hknown
    | false =>
      have hstays (key : Text) : (key = asked ∧ ∃ u ∈ r'.entries.get? key, u.StaysReady ∧
          (u.makeReady.run s').1 = true) ↔
          key = asked ∧ t.StaysReady ∧ (t.makeReady.run s').1 = true := by
        refine and_congr_right ?_
        rintro rfl
        simp [hfound]
      simp only [hstays]
      rw [if_neg (by simp), Session.run_bind, Option.filter_some, Bool.false_or]
      cases (t.makeReady.run s').1 with
      | false =>
        refine ⟨rfl, rfl, fun key => (or_iff_left ?_).symm⟩
        rintro ⟨-, -, hmade⟩
        cases hmade
      | true =>
        cases hkind : t.kind with
        | fixed =>
          have hnot : ¬ t.StaysReady := by
            rintro ⟨root, tools, hsysroot⟩
            cases hkind.symm.trans hsysroot
          exact ⟨rfl, rfl, fun key => (or_iff_left fun hkey => hnot hkey.2.1).symm⟩
        | sysroot root tools =>
          have ht : t.StaysReady := ⟨root, tools, hkind⟩
          refine ⟨rfl, rfl, fun key => ?_⟩
          show ((r'.ready.insert asked ()).get? key).isSome = true ↔ _
          rw [Dictionary.get?_insert]
          by_cases hkey : key = asked <;> simp [hkey, ht]

theorem find_of_no_host (h : ((r.resolve probe).run s).1.1 = none) :
    ((r.find probe platform arch).run s).1 = (none, ((r.resolve probe).run s).1.2) := by
  unfold find
  rw [Session.run_bind]
  generalize (r.resolve probe).run s = resolved at h ⊢
  obtain ⟨⟨found, r'⟩, s'⟩ := resolved
  obtain rfl : found = none := h
  rfl

theorem find_entries (r : Registry) (probe : Host.Probe) (platform arch : Text) (s : Session) :
    ((r.find probe platform arch).run s).1.2.entries = r.entries := by
  cases hhost : ((r.resolve probe).run s).1.1 with
  | none => rw [find_of_no_host platform arch hhost, (resolve_keeps ..).1]
  | some host => exact (find_of_host platform arch hhost).1

end Find

/-- The dictionary of a registry is made from what was registered. -/
theorem Holds.entries_eq (h : Holds ts r) :
    r.entries = Dictionary.ofList (ts.map fun t => (t.ownKey, t)) := by
  induction h with
  | new => rfl
  | register _ t s ih =>
    rw [register_eq, insert, ih, List.map_append, Dictionary.ofList, Dictionary.ofList,
      List.foldl_append]
    rfl
  | resolve _ probe s ih => rw [(resolve_keeps ..).1, ih]
  | find _ probe platform arch s ih => rw [find_entries, ih]

/-- What is found under a key is what was registered last with this key. -/
theorem Holds.get?_entries (h : Holds ts r) (key : Text) :
    r.entries.get? key = ts.reverse.find? (·.ownKey = key) := by
  rw [h.entries_eq, Dictionary.get?_ofList, ← List.map_reverse, Dictionary.get?_map,
    Option.map_id_fun', id]

/-- A toolchain was made ready in a lookup with its key, when it was the last one registered with
that, and none has been registered with it since. -/
inductive MadeReady (t : Toolchain) : List Toolchain → Registry → Prop
  | lookup {ts : List Toolchain} {r : Registry} {probe : Host.Probe} {platform arch : Text}
    {s : Session} {host : Host} (h : Holds ts r)
    (hlast : ts.reverse.find? (·.ownKey = t.ownKey) = some t)
    (hhost : ((r.resolve probe).run s).1.1 = some host)
    (hkey : Toolchain.key host.platform host.arch platform arch = t.ownKey)
    (hready : (t.makeReady.run ((r.resolve probe).run s).2).1 = true) :
    MadeReady t ts ((r.find probe platform arch).run s).1.2
  | register {ts : List Toolchain} {r : Registry} (h : MadeReady t ts r) {other : Toolchain}
    (hother : other.ownKey ≠ t.ownKey) (s : Session) :
    MadeReady t (ts ++ [other]) ((r.register other).run s).1
  | resolve {ts : List Toolchain} {r : Registry} (h : MadeReady t ts r) (probe : Host.Probe)
    (s : Session) : MadeReady t ts ((r.resolve probe).run s).1.2
  | find {ts : List Toolchain} {r : Registry} (h : MadeReady t ts r) (probe : Host.Probe)
    (platform arch : Text) (s : Session) : MadeReady t ts ((r.find probe platform arch).run s).1.2

/-- What was registered last with a key, after one more registration. -/
theorem find?_reverse_append (ts : List Toolchain) (t : Toolchain) (key : Text) :
    (ts ++ [t]).reverse.find? (·.ownKey = key) =
      if t.ownKey = key then some t else ts.reverse.find? (·.ownKey = key) := by
  by_cases h : t.ownKey = key <;> simp [h]

theorem ownKey_of_last {t : Toolchain} {key : Text} (h : t ∈ ts.reverse.find? (·.ownKey = key)) :
    t.ownKey = key := by
  have hfound := List.find?_some (Option.mem_def.mp h)
  exact of_decide_eq_true hfound

/-- A registration forgets whether what had its key was ready. -/
theorem get?_ready_insert (r : Registry) (t : Toolchain) (key : Text) :
    (r.insert t).ready.get? key = if t.ownKey = key then none else r.ready.get? key := by
  rw [insert, Dictionary.get?_filter key (· != t.ownKey)]
  by_cases h : t.ownKey = key <;> simp [h, bne_iff_ne, Ne.symm]

/-- No lookup forgets what is known to be ready. -/
theorem isSome_ready_find (probe : Host.Probe) (platform arch : Text) (s : Session) {key : Text}
    (h : (r.ready.get? key).isSome = true) :
    (((r.find probe platform arch).run s).1.2.ready.get? key).isSome = true := by
  cases hhost : ((r.resolve probe).run s).1.1 with
  | none =>
    rw [find_of_no_host platform arch hhost, (resolve_keeps ..).2]
    exact h
  | some host => exact ((find_of_host platform arch hhost).2.2 key).mpr (.inl h)

/-- A sysroot that was made ready is known to be ready. -/
theorem MadeReady.isSome_ready {t : Toolchain} (h : MadeReady t ts r) (ht : t.StaysReady) :
    (r.ready.get? t.ownKey).isSome = true := by
  induction h with
  | lookup h hlast hhost hkey hready =>
    refine ((find_of_host _ _ hhost).2.2 _).mpr (.inr ⟨hkey.symm, t, ?_, ht, hready⟩)
    rw [h.get?_entries, hlast]
    rfl
  | register _ hother s ih =>
    rw [register_eq, get?_ready_insert, if_neg hother]
    exact ih
  | resolve _ probe s ih =>
    rw [(resolve_keeps ..).2]
    exact ih
  | find _ probe platform arch s ih => exact isSome_ready_find probe platform arch s ih

/-- What is known to be ready under a key: a sysroot that was registered last with it, and that a
lookup has made ready since. -/
theorem Holds.ready_iff (h : Holds ts r) (key : Text) : (r.ready.get? key).isSome = true ↔
    ∃ t ∈ ts.reverse.find? (·.ownKey = key), t.StaysReady ∧ MadeReady t ts r := by
  constructor
  · intro hknown
    induction h with
    | new => cases hknown
    | register h t s ih =>
      rw [register_eq, get?_ready_insert] at hknown
      split at hknown
      · cases hknown
      · next hother =>
        obtain ⟨u, hlast, hu, hmade⟩ := ih hknown
        refine ⟨u, ?_, hu, hmade.register ?_ s⟩
        · rw [find?_reverse_append, if_neg hother]
          exact hlast
        · rwa [ownKey_of_last hlast]
    | resolve h probe s ih =>
      rw [(resolve_keeps ..).2] at hknown
      obtain ⟨u, hlast, hu, hmade⟩ := ih hknown
      exact ⟨u, hlast, hu, hmade.resolve probe s⟩
    | @find ts r h probe platform arch s ih =>
      have hbefore (hknown : (r.ready.get? key).isSome = true) :
          ∃ t ∈ ts.reverse.find? (·.ownKey = key),
            t.StaysReady ∧ MadeReady t ts ((r.find probe platform arch).run s).1.2 := by
        obtain ⟨u, hlast, hu, hmade⟩ := ih hknown
        exact ⟨u, hlast, hu, hmade.find probe platform arch s⟩
      cases hhost : ((r.resolve probe).run s).1.1 with
      | none =>
        rw [find_of_no_host platform arch hhost, (resolve_keeps ..).2] at hknown
        exact hbefore hknown
      | some host =>
        obtain hknown | ⟨rfl, t, ht, hstays, hready⟩ :=
          ((find_of_host platform arch hhost).2.2 key).mp hknown
        · exact hbefore hknown
        · rw [h.get?_entries] at ht
          have hkey := ownKey_of_last ht
          exact ⟨t, ht, hstays, .lookup h (hkey ▸ ht) hhost hkey.symm hready⟩
  · rintro ⟨t, hlast, ht, hmade⟩
    obtain rfl := ownKey_of_last hlast
    exact hmade.isSome_ready ht

/-- Initializing what was registered last with its key succeeds if it is ready now, or if it is a
sysroot that was made ready since. -/
theorem Holds.starts_iff (h : Holds ts r) {t : Toolchain}
    (hlast : ts.reverse.find? (·.ownKey = t.ownKey) = some t) (s : Session) :
    r.starts s t = true ↔ t.StaysReady ∧ MadeReady t ts r ∨ (t.makeReady.run s).1 = true := by
  have hready : (r.ready.get? t.ownKey).isSome = true ↔ t.StaysReady ∧ MadeReady t ts r := by
    rw [h.ready_iff]
    simp [hlast]
  rw [starts, Bool.or_eq_true, hready]

/-- Without separators in the way, what was registered last is found by its fields. -/
theorem Holds.get?_joined (h : Holds ts r) (hts : ∀ t ∈ ts, t.identity.Clear) {i : Identity}
    (hi : i.Clear) : r.entries.get? i.joined = ts.reverse.find? (·.identity = i) := by
  rw [h.get?_entries]
  refine List.find?_congr fun t ht => decide_eq_decide.mpr ?_
  rw [Toolchain.ownKey_eq]
  constructor
  · exact (hts t (List.mem_reverse.mp ht)).eq_of_joined hi
  · exact congrArg Identity.joined

/-- Without separators in the way, a registry has one toolchain for each identity. -/
theorem Holds.size_eq (h : Holds ts r) (hts : ∀ t ∈ ts, t.identity.Clear) :
    r.size = (ts.map (·.identity)).toFinset.card := by
  have hkeys : (ts.map (·.ownKey)).toFinset
      = (ts.map (·.identity)).toFinset.image Identity.joined := by
    ext key
    simp [Toolchain.ownKey_eq]
  have hinj : Set.InjOn Identity.joined (ts.map (·.identity)).toFinset := by
    intro i hi j hj hjoined
    obtain ⟨t, ht, rfl⟩ := List.mem_map.mp (List.mem_toFinset.mp hi)
    obtain ⟨t', ht', rfl⟩ := List.mem_map.mp (List.mem_toFinset.mp hj)
    exact (hts t ht).eq_of_joined (hts t' ht') hjoined
  rw [size, h.entries_eq, Dictionary.length_ofList, List.map_map]
  exact (congrArg Finset.card hkeys).trans (Finset.card_image_of_injOn hinj)

/-- After any registrations and lookups a registry has one toolchain for each host and target, and
finds the one that was registered last, if initializing it succeeds. Fields are compared up to the
case of letters; the separator of the keys must not be in one that stands in front of another. -/
theorem Holds.finds_last (h : Holds ts r) (hts : ∀ t ∈ ts, t.identity.Clear) :
    r.size = (ts.map (·.identity)).toFinset.card ∧
      ∀ (probe : Host.Probe) (platform arch : Text) (s : Session) (host : Host),
        ((r.resolve probe).run s).1.1 = some host →
        (identityOf host.platform host.arch platform arch).Clear →
        ((r.find probe platform arch).run s).1.1 =
          (ts.reverse.find? (·.identity = identityOf host.platform host.arch platform arch)).filter
            (r.starts ((r.resolve probe).run s).2) := by
  refine ⟨h.size_eq hts, fun probe platform arch s host hhost hclear => ?_⟩
  rw [(find_of_host platform arch hhost).2.1, Toolchain.key_eq, h.get?_joined hts hclear]
  cases hlast : ts.reverse.find?
      (·.identity = identityOf host.platform host.arch platform arch) with
  | none => rfl
  | some t =>
    have hfound := List.find?_some hlast
    have hidentity : t.identity = identityOf host.platform host.arch platform arch :=
      of_decide_eq_true hfound
    rw [Option.filter_some, Option.filter_some, starts, Toolchain.ownKey_eq, hidentity]

/-- A toolchain of a host that is spelled in capitals. -/
def sdk (name platform arch : Text) (ready : Bool) : Toolchain :=
  { name
    hostPlatform := utf8 "Linux"
    hostArch := utf8 "X86_64"
    targetPlatform := platform
    targetArch := arch
    kind := .fixed [] ready }

/-- Two toolchains for one target, and one in between that cannot be initialized. -/
def three : List Toolchain :=
  [sdk (utf8 "first") (utf8 "WebGL") [] true, sdk (utf8 "broken") (utf8 "linux") (utf8 "a,b") false,
    sdk (utf8 "second") (utf8 "webgl") [] true]

/-- The registry of the three. -/
def ofThree : Registry := three.foldl (fun r t => ((r.register t).run {}).1) {}

/-- The later of the two is found, and the one in between is not. -/
theorem finds_last_of_three :
    let probe : Host.Probe := pure ⟨some (utf8 "linux"), some (utf8 "x86_64")⟩
    ofThree.size = 2 ∧
      ((ofThree.find probe (utf8 "WEBGL") []).run {}).1.1
        = some (sdk (utf8 "second") (utf8 "webgl") [] true) ∧
      ((ofThree.find probe (utf8 "linux") (utf8 "A,b")).run {}).1.1 = none := by
  intro probe
  have hholds : Holds three ofThree :=
    .register (.register (.register (.new {} false) _ {}) _ {}) _ {}
  obtain ⟨hsize, hfind⟩ := hholds.finds_last (by decide +kernel)
  have hhost : ((ofThree.resolve probe).run {}).1.1 = some ⟨utf8 "linux", utf8 "x86_64"⟩ := by
    decide +kernel
  refine ⟨hsize.trans (by decide +kernel), ?_, ?_⟩
  · exact (hfind probe _ _ _ _ hhost (by decide +kernel)).trans (by decide +kernel)
  · exact (hfind probe _ _ _ _ hhost (by decide +kernel)).trans (by decide +kernel)

end Registry

end NativeBuild
