import NativeBuild.Proofs.Host.Resolution
import NativeBuild.Proofs.Registry
import NativeBuild.Subprocess

/-!
# Hosts up to the case of letters

Overrides are put into lower case, and what a probe finds out is taken as it is. So two resolvers
whose overrides and findings differ in the case of letters alone return hosts that differ in nothing
else, in the same calls. A registry compares in lower case and finds the same toolchains for both.
The hosts are equal, and in lower case, exactly if the probes found in lower case what was not
overridden. What the system tells about itself is put into lower case when it is read.
-/
namespace NativeBuild.Host

/-- The host in lower case. -/
def toLower (h : Host) : Host := ⟨Text.toLower h.platform, Text.toLower h.arch⟩

/-- The findings in lower case. -/
def Findings.toLower (f : Findings) : Findings :=
  ⟨f.platform.map Text.toLower, f.arch.map Text.toLower⟩

/-- What is not overridden has been found in lower case. -/
structure Resolver.FindsLower (r : Resolver) (f : Findings) : Prop where
  platform : r.platform = none → f.toLower.platform = f.platform
  arch : r.arch = none → f.toLower.arch = f.arch

section Findings

variable {r r' : Resolver} {f f' : Findings} {host : Host}

theorem host?_toLower (f : Findings) : f.toLower.host? = f.host?.map Host.toLower := by
  obtain ⟨platform, arch⟩ := f
  cases platform <;> cases arch <;> rfl

/-- Overrides and findings that are equal up to the case of letters give such hosts. -/
theorem map_toLower_host? (hplatform : r.platform.map Text.toLower = r'.platform.map Text.toLower)
    (harch : r.arch.map Text.toLower = r'.arch.map Text.toLower) (h : f.toLower = f'.toLower) :
    (r.override f).host?.map Host.toLower = (r'.override f').host?.map Host.toLower := by
  have hparts (override found : Option Text) :
      (override.map Text.toLower |>.or found).map Text.toLower =
        (override.map Text.toLower).or (found.map Text.toLower) := by
    cases override <;> simp
  obtain ⟨hfound, hfound'⟩ := Findings.mk.inj h
  have hlower : (r.override f).toLower = (r'.override f').toLower := by
    simp only [Findings.toLower, Resolver.override, hparts, hplatform, harch, hfound, hfound']
  rw [← host?_toLower, ← host?_toLower, hlower]

/-- The host is in lower case if what is not overridden has been found so. -/
theorem Resolver.Yields.toLower_eq_iff (h : r.Yields f host) :
    host.toLower = host ↔ r.FindsLower f := by
  have hparts : host.toLower = host ↔
      Text.toLower host.platform = host.platform ∧ Text.toLower host.arch = host.arch := by
    obtain ⟨platform, arch⟩ := host
    exact Host.mk.injEq .. ▸ Iff.rfl
  rw [hparts]
  constructor
  · rintro ⟨hplatform, harch⟩
    refine ⟨fun hnone => ?_, fun hnone => ?_⟩
    · simp [Findings.toLower, h.platform_of_findings hnone, hplatform]
    · simp [Findings.toLower, h.arch_of_findings hnone, harch]
  · rintro ⟨hplatform, harch⟩
    constructor
    · cases hoverride : r.platform with
      | none =>
        simpa [Findings.toLower, h.platform_of_findings hoverride] using hplatform hoverride
      | some p => rw [h.platform_of_override p hoverride, Text.toLower_toLower]
    · cases hoverride : r.arch with
      | none => simpa [Findings.toLower, h.arch_of_findings hoverride] using harch hoverride
      | some a => rw [h.arch_of_override a hoverride, Text.toLower_toLower]

end Findings

section System

theorem toLower_normalizeArch (arch : Text) :
    Text.toLower (normalizeArch arch) = normalizeArch arch := by
  unfold normalizeArch
  dsimp only
  split
  · decide +kernel
  split
  · decide +kernel
  · exact Text.toLower_toLower arch

/-- A system description is read in lower case. -/
theorem toLower_ofDescription (t : Text) :
    (Findings.ofDescription t).toLower = Findings.ofDescription t := by
  unfold Findings.ofDescription
  split
  · simp [Findings.toLower, toLower_normalizeArch]
  · rfl

/-- The case of the letters of a system description makes no difference. -/
theorem ofDescription_toLower (t : Text) :
    Findings.ofDescription (Text.toLower t) = Findings.ofDescription t := by
  have harch (arch : Text) : normalizeArch (Text.toLower arch) = normalizeArch arch := by
    simp only [normalizeArch, Text.toLower_toLower]
  unfold Findings.ofDescription
  rw [Text.splitAny_toLower (by decide +kernel)]
  obtain _ | ⟨platform, _ | ⟨arch, rest⟩⟩ := Text.splitAny (utf8 " \r\n") t
  · rfl
  · rfl
  · simp [harch]

/-- Nothing is found out from an empty description. -/
theorem ofDescription_nil : Findings.ofDescription [] = {} := by
  rw [Findings.ofDescription, Text.splitAny_eq_words, Text.words_nil]

/-- The system is told about by a description. -/
theorem exists_description (s : Session) :
    ∃ t, (Subprocess.probe.run s).1 = Findings.ofDescription t := by
  unfold Subprocess.probe
  rw [Session.run_bind]
  cases ((Subprocess.capture (utf8 "uname -s -m")).run s).1 with
  | none => exact ⟨[], ofDescription_nil.symm⟩
  | some output =>
    refine ⟨output, ?_⟩
    cases hnone : (Findings.ofDescription output).platform.isNone <;> simp [hnone] <;> rfl

end System

namespace Inquiry

/-- What is not overridden is found in lower case in a call. -/
def FindsLower (i : Inquiry) (n : ℕ) : Prop := i.resolver.FindsLower (i.findings n)

/-- Overrides, and what the probes find out when they are asked, differ in the case of letters
alone. -/
structure Alike (i j : Inquiry) : Prop where
  platform : i.platform.map Text.toLower = j.platform.map Text.toLower
  arch : i.arch.map Text.toLower = j.arch.map Text.toLower
  findings : ∀ n, (∀ k < n, ¬i.Known k) → (i.findings n).toLower = (j.findings n).toLower

/-- The registry as it stands in a call. -/
def registry (i : Inquiry) (r : Registry) (n : ℕ) : Registry := { r with resolver := (i.state n).1 }

/-- What a registry finds for a target in a call. -/
def lookup (i : Inquiry) (r : Registry) (n : ℕ) (platform arch : Text) : Option Toolchain :=
  (((i.registry r n).find (i.probe n) platform arch).run (i.session n)).1.1

/-- Host and target, as a registry writes them in a call. -/
def triple (i : Inquiry) (r : Registry) (n : ℕ) (platform arch : Text) : Option Text :=
  (((i.registry r n).triple (i.probe n) platform arch).run (i.session n)).1.1

variable {i j : Inquiry} {n first : ℕ}

theorem triple_eq (i : Inquiry) (r : Registry) (n : ℕ) (platform arch : Text) :
    i.triple r n platform arch = (i.answer n).map (·.triple platform arch) := rfl

/-- A registry looks for its toolchain by the host in lower case. -/
theorem lookup_eq (i : Inquiry) (r : Registry) (n : ℕ) (platform arch : Text) :
    i.lookup r n platform arch = ((i.answer n).map Host.toLower).bind fun host =>
      (r.entries.get? (Toolchain.key host.platform host.arch platform arch)).filter fun t =>
        (r.ready.get? (Toolchain.key host.platform host.arch platform arch)).isSome
          || (t.makeReady.run (i.left n)).1 := by
  have hresolve : (((i.registry r n).resolve (i.probe n)).run (i.session n)).1.1 = i.answer n := rfl
  cases hanswer : i.answer n with
  | none =>
    exact congrArg Prod.fst (Registry.find_of_no_host platform arch (hresolve.trans hanswer))
  | some host =>
    have hkey : Toolchain.key host.toLower.platform host.toLower.arch platform arch =
        Toolchain.key host.platform host.arch platform arch := by
      simp [Toolchain.key, Host.toLower]
    rw [Option.map_some, Option.bind_some, hkey]
    exact (Registry.find_of_host platform arch (hresolve.trans hanswer)).2.1

theorem Alike.host?_eq (h : i.Alike j) (hn : ∀ k < n, ¬i.Known k) :
    (i.resolver.override (i.findings n)).host?.map Host.toLower =
      (j.resolver.override (j.findings n)).host?.map Host.toLower :=
  map_toLower_host? h.platform h.arch (h.findings n hn)

theorem Alike.known_iff (h : i.Alike j) (hn : ∀ k < n, ¬i.Known k) : i.Known n ↔ j.Known n := by
  rw [Known, Known, ← isSome_host?_override_iff, ← isSome_host?_override_iff,
    ← Option.isSome_map (f := Host.toLower), h.host?_eq hn, Option.isSome_map]

/-- The probes find a host for the first time in the same call. -/
theorem Alike.isFirst (h : i.Alike j) (hfirst : i.IsFirst first) : j.IsFirst first where
  known := (h.known_iff hfirst.not_known).mp hfirst.known
  not_known k hk := by
    rw [← h.known_iff fun l hl => hfirst.not_known l (Nat.lt_trans hl hk)]
    exact hfirst.not_known k hk

/-- The same calls return a host, up to the case of letters. -/
theorem Alike.answer_eq (h : i.Alike j) (n : ℕ) :
    (i.answer n).map Host.toLower = (j.answer n).map Host.toLower := by
  obtain ⟨hnone, hanswer⟩ | ⟨first, hle, hfirst, hanswer⟩ := i.answer_cases n
  · have hnone' : ∀ k < n, ¬j.Known k := fun k hk => by
      rw [← h.known_iff fun l hl => hnone l (Nat.le_of_lt (Nat.lt_trans hl hk))]
      exact hnone k (Nat.le_of_lt hk)
    rw [(answer_of_not_known fun k hk => hnone k (Nat.le_of_lt hk)).1,
      (answer_of_not_known hnone').1]
    exact h.host?_eq fun k hk => hnone k (Nat.le_of_lt hk)
  · have hfirst' := h.isFirst hfirst
    rw [hanswer, hfirst'.answer_of_le hle, (answer_of_not_known hfirst.not_known).1,
      (answer_of_not_known hfirst'.not_known).1]
    exact h.host?_eq hfirst.not_known

/-- What the system tells is found in lower case. -/
theorem findsLower_of_system (h : i.probe n = Subprocess.probe) : i.FindsLower n := by
  obtain ⟨t, hdescription⟩ := exists_description (i.session n)
  have hfindings : i.findings n = Findings.ofDescription t := by rw [findings, h, hdescription]
  constructor
  · intro _
    rw [hfindings, toLower_ofDescription]
  · intro _
    rw [hfindings, toLower_ofDescription]

/-- The hosts are the same, and in lower case, if what is not overridden has been found so. -/
theorem Alike.findsLower_iff (h : i.Alike j) (hfirst : i.IsFirst first) :
    i.FindsLower first ∧ j.FindsLower first ↔
      ∃ host, i.answer first = some host ∧ j.answer first = some host ∧ host.toLower = host := by
  obtain ⟨host, hhost, hyields⟩ := hfirst.exists_answer
  obtain ⟨host', hhost', hyields'⟩ := (h.isFirst hfirst).exists_answer
  rw [FindsLower, FindsLower, ← hyields.toLower_eq_iff, ← hyields'.toLower_eq_iff]
  constructor
  · rintro ⟨hlower, hlower'⟩
    have hsame := h.answer_eq first
    rw [hhost, hhost', Option.map_some, Option.map_some, hlower, hlower'] at hsame
    exact ⟨host, hhost, hhost'.trans hsame.symm, hlower⟩
  · rintro ⟨other, hanswer, hanswer', hlower⟩
    obtain rfl : other = host := Option.some.inj (hanswer.symm.trans hhost)
    obtain rfl : other = host' := Option.some.inj (hanswer'.symm.trans hhost')
    exact ⟨hlower, hlower⟩

/-- Resolvers that differ in the case of letters alone return hosts that do, in the same calls, and
a registry finds the same toolchains for both. The hosts are the same, and in lower case, exactly if
what is not overridden was found in lower case by both probes, and then everything that is told from
the host is the same. What the system tells is always found so, and descriptions of it that differ
in the case of letters alone are read as one. -/
theorem hosts_up_to_letters (h : i.Alike j) (n : ℕ) :
    (i.answer n).map Host.toLower = (j.answer n).map Host.toLower ∧
    (∀ (r : Registry) (platform arch : Text),
      (∀ p, (i.left n).files.isDirectory p = (j.left n).files.isDirectory p) →
      i.lookup r n platform arch = j.lookup r n platform arch) ∧
    (∀ first ≤ n, i.IsFirst first →
      (i.FindsLower first ∧ j.FindsLower first ↔
        ∃ host : Host, host.toLower = host ∧ i.answer n = some host ∧ j.answer n = some host ∧
          ∀ (r : Registry) (platform arch : Text),
            i.triple r n platform arch = some (host.triple platform arch) ∧
              j.triple r n platform arch = some (host.triple platform arch))) ∧
    (∀ k, i.probe k = Subprocess.probe → i.FindsLower k) ∧
    ∀ t t', Text.toLower t = Text.toLower t' →
      Findings.ofDescription t = Findings.ofDescription t' := by
  refine ⟨h.answer_eq n, fun r platform arch hfiles => ?_, fun first hle hfirst => ?_,
    fun k => findsLower_of_system, fun t t' hsame => ?_⟩
  · rw [lookup_eq, lookup_eq, h.answer_eq n]
    simp only [Toolchain.run_makeReady_congr hfiles]
  · rw [h.findsLower_iff hfirst, hfirst.answer_of_le hle, (h.isFirst hfirst).answer_of_le hle]
    constructor
    · rintro ⟨host, hhost, hhost', hlower⟩
      refine ⟨host, hlower, hhost, hhost', fun r platform arch => ?_⟩
      rw [triple_eq, triple_eq, hfirst.answer_of_le hle, (h.isFirst hfirst).answer_of_le hle,
        hhost, hhost']
      exact ⟨rfl, rfl⟩
    · rintro ⟨host, hlower, hhost, hhost', -⟩
      exact ⟨host, hhost, hhost', hlower⟩
  · rw [← ofDescription_toLower t, hsame, ofDescription_toLower]

/-- A probe that spells the platform in a capital, with another spelling of the override. -/
theorem hosts_up_to_letters_of_capitals :
    let i : Inquiry :=
      { arch := some (utf8 "ARM64"), probe := fun _ => pure ⟨some (utf8 "Linux"), none⟩ }
    let j : Inquiry :=
      { arch := some (utf8 "arm64"), probe := fun _ => pure ⟨some (utf8 "linux"), none⟩ }
    i.answer 0 = some ⟨utf8 "Linux", utf8 "arm64"⟩ ∧
      j.answer 0 = some ⟨utf8 "linux", utf8 "arm64"⟩ ∧
      ¬(i.FindsLower 0 ∧ j.FindsLower 0) ∧
      ∀ (r : Registry) (platform arch : Text),
        i.lookup r 0 platform arch = j.lookup r 0 platform arch := by
  intro i j
  have halike : i.Alike j := ⟨by decide +kernel, by decide +kernel, fun n _ => by
    change Findings.toLower ⟨some (utf8 "Linux"), none⟩ =
      Findings.toLower ⟨some (utf8 "linux"), none⟩
    decide +kernel⟩
  have hfirst : i.IsFirst 0 := ⟨by decide +kernel, by simp⟩
  have hhost : i.answer 0 = some ⟨utf8 "Linux", utf8 "arm64"⟩ := by decide +kernel
  have hhost' : j.answer 0 = some ⟨utf8 "linux", utf8 "arm64"⟩ := by decide +kernel
  obtain ⟨-, hlookup, hlower, -, -⟩ := hosts_up_to_letters halike 0
  refine ⟨hhost, hhost', fun hfinds => ?_, fun r platform arch => ?_⟩
  · obtain ⟨host, -, hanswer, hanswer', -⟩ := (hlower 0 (Nat.le_refl 0) hfirst).mp hfinds
    rw [hhost, ← hanswer', hhost'] at hanswer
    exact absurd hanswer (by decide +kernel)
  · exact hlookup r platform arch fun p => rfl

end Inquiry

end NativeBuild.Host
