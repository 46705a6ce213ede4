import Mathlib.Data.Nat.Find
import NativeBuild.Host
import NativeBuild.Proofs.Log.Places

/-!
# The calls of a resolver

A resolver asks its probe once in each call, until both parts of the host are known: found by the
probe, or overridden. Nothing of an answer that is not complete is kept for the next call. The first
host that is complete is the answer of all later calls, and the probe is not asked again, whatever
it would find out by then and whatever else is done between the calls.
-/
namespace NativeBuild.Host

/-- Both parts of the host are found, or overridden. -/
def Resolver.Completes (r : Resolver) (f : Findings) : Prop :=
  (r.platform.isSome ∨ f.platform.isSome) ∧ (r.arch.isSome ∨ f.arch.isSome)

instance (r : Resolver) (f : Findings) : Decidable (r.Completes f) :=
  inferInstanceAs (Decidable (_ ∧ _))

/-- The host has the overrides in lower case, and the findings where there is no override. -/
structure Resolver.Yields (r : Resolver) (f : Findings) (host : Host) : Prop where
  platform_of_override : ∀ p, r.platform = some p → host.platform = Text.toLower p
  arch_of_override : ∀ a, r.arch = some a → host.arch = Text.toLower a
  platform_of_findings : r.platform = none → f.platform = some host.platform
  arch_of_findings : r.arch = none → f.arch = some host.arch

section Resolver

variable {r : Resolver} {f : Findings} {host : Host}

theorem host?_eq_some_iff : f.host? = some host ↔
    f.platform = some host.platform ∧ f.arch = some host.arch := by
  obtain ⟨platform, arch⟩ := f
  obtain ⟨hostPlatform, hostArch⟩ := host
  cases platform <;> cases arch <;> simp [Findings.host?]

theorem host?_override_eq_some_iff : (r.override f).host? = some host ↔ r.Yields f host := by
  rw [host?_eq_some_iff]
  obtain ⟨platform, arch, found⟩ := r
  constructor
  · rintro ⟨hplatform, harch⟩
    constructor <;> cases platform <;> cases arch <;> simp_all [Resolver.override]
  · rintro ⟨hplatform, harch, hplatform', harch'⟩
    cases platform <;> cases arch <;> simp_all [Resolver.override]

theorem isSome_host?_override_iff : (r.override f).host?.isSome ↔ r.Completes f := by
  obtain ⟨platform, arch, found⟩ := r
  obtain ⟨foundPlatform, foundArch⟩ := f
  cases platform <;> cases arch <;> cases foundPlatform <;> cases foundArch <;>
    simp [Resolver.override, Resolver.Completes, Findings.host?]

theorem resolve_of_found (h : r.found = some host) (probe : Probe) (s : Session) :
    (r.resolve probe).run s = ((some host, r), s) := by
  unfold Resolver.resolve
  rw [h]
  rfl

/-- A call without a host asks the probe, and keeps what the overrides complete. -/
theorem resolve_of_not_found (h : r.found = none) (probe : Probe) (s : Session) :
    ∃ message, (r.resolve probe).run s =
      (((r.override (probe.run s).1).host?,
          { r with found := (r.override (probe.run s).1).host? }),
        ((Session.log .debug (utf8 "host") message).run (probe.run s).2).2) := by
  unfold Resolver.resolve
  rw [h]
  dsimp only
  rw [Session.run_bind]
  cases (r.override (probe.run s).1).host? with
  | none =>
    have hr : { r with found := none } = r := by rw [← h]
    rw [hr]
    exact ⟨_, rfl⟩
  | some host => exact ⟨_, rfl⟩

end Resolver

/-- The overrides of a new resolver, the probe that it asks in each call, and what is done in the
session before each call. -/
structure Inquiry where
  platform : Option Text := none
  arch : Option Text := none
  probe : ℕ → Probe
  start : Session := {}
  meanwhile : ℕ → Session → Session := fun _ s => s

namespace Inquiry

/-- The resolver before the first call. -/
def resolver (i : Inquiry) : Resolver := { platform := i.platform, arch := i.arch }

/-- The resolver and the session in which a call is made; the calls are counted from zero. -/
def state (i : Inquiry) : ℕ → Resolver × Session
  | 0 => (i.resolver, i.meanwhile 0 i.start)
  | n + 1 =>
    let ((_, r), s) := ((i.state n).1.resolve (i.probe n)).run (i.state n).2
    (r, i.meanwhile (n + 1) s)

/-- The session in which a call is made. -/
def session (i : Inquiry) (n : ℕ) : Session := (i.state n).2

/-- What a call returns. -/
def answer (i : Inquiry) (n : ℕ) : Option Host :=
  (((i.state n).1.resolve (i.probe n)).run (i.session n)).1.1

/-- The session that a call leaves. -/
def left (i : Inquiry) (n : ℕ) : Session :=
  (((i.state n).1.resolve (i.probe n)).run (i.session n)).2

/-- What the probe finds out if it is asked in a call. -/
def findings (i : Inquiry) (n : ℕ) : Findings := ((i.probe n).run (i.session n)).1

/-- A call asks the probe once, and does nothing else but to log a record. -/
def AsksOnce (i : Inquiry) (n : ℕ) : Prop :=
  ∃ message, i.left n =
    ((Session.log .debug (utf8 "host") message).run ((i.probe n).run (i.session n)).2).2

/-- It can be told from a session how often the probe has been asked. -/
structure Counts (i : Inquiry) (asked : Session → ℕ) : Prop where
  probe : ∀ n s, asked ((i.probe n).run s).2 = asked s + 1
  log : ∀ level module message s, asked ((Session.log level module message).run s).2 = asked s

/-- In a call, the probe and the overrides give a host. -/
def Known (i : Inquiry) (n : ℕ) : Prop := i.resolver.Completes (i.findings n)

instance (i : Inquiry) (n : ℕ) : Decidable (i.Known n) :=
  inferInstanceAs (Decidable (i.resolver.Completes _))

/-- The first call in which the probe and the overrides give a host. -/
structure IsFirst (i : Inquiry) (n : ℕ) : Prop where
  known : i.Known n
  not_known : ∀ k < n, ¬i.Known k

variable {i : Inquiry} {n first : ℕ}

theorem AsksOnce.count (h : i.AsksOnce n) {asked : Session → ℕ} (hcounts : i.Counts asked) :
    asked (i.left n) = asked (i.session n) + 1 := by
  obtain ⟨message, hleft⟩ := h
  rw [hleft, hcounts.log, hcounts.probe]

/-- Without a host, a call asks the probe. -/
theorem step_of_not_found (hfound : (i.state n).1.found = none) :
    i.answer n = ((i.state n).1.override (i.findings n)).host? ∧
      (i.state (n + 1)).1 = { (i.state n).1 with found := i.answer n } ∧ i.AsksOnce n := by
  obtain ⟨message, hrun⟩ := resolve_of_not_found hfound (i.probe n) (i.session n)
  have hanswer : i.answer n = ((i.state n).1.override (i.findings n)).host? := by
    rw [answer, hrun, findings]
  refine ⟨hanswer, ?_, message, by rw [left, hrun]⟩
  rw [hanswer]
  exact congrArg (·.1.2) hrun

/-- With a host, a call does nothing. -/
theorem step_of_found {host : Host} (hfound : (i.state n).1.found = some host) :
    i.answer n = some host ∧ (i.state (n + 1)).1 = (i.state n).1 ∧ i.left n = i.session n := by
  have hrun := resolve_of_found hfound (i.probe n) (i.session n)
  exact ⟨congrArg (·.1.1) hrun, congrArg (·.1.2) hrun, congrArg (·.2) hrun⟩

/-- As long as no host is known, the resolver is as new. -/
theorem state_of_not_known (h : ∀ k < n, ¬i.Known k) : (i.state n).1 = i.resolver := by
  induction n with
  | zero => rfl
  | succ n ih =>
    have hresolver := ih fun k hk => h k (Nat.lt_succ_of_lt hk)
    obtain ⟨hanswer, hstate, -⟩ := step_of_not_found (by rw [hresolver]; rfl)
    have hnone : i.answer n = none := by
      rw [hanswer, hresolver, ← Option.not_isSome_iff_eq_none, isSome_host?_override_iff]
      exact h n (Nat.lt_succ_self n)
    rw [hstate, hnone, hresolver]
    rfl

/-- Up to the first host, a call asks once and returns what the findings give. -/
theorem answer_of_not_known (h : ∀ k < n, ¬i.Known k) :
    i.answer n = (i.resolver.override (i.findings n)).host? ∧ i.AsksOnce n := by
  have hresolver := state_of_not_known h
  obtain ⟨hanswer, -, hasks⟩ := step_of_not_found (by rw [hresolver]; rfl)
  exact ⟨by rw [hanswer, hresolver], hasks⟩

theorem IsFirst.exists_answer (h : i.IsFirst first) :
    ∃ host, i.answer first = some host ∧ i.resolver.Yields (i.findings first) host := by
  have hanswer := (answer_of_not_known h.not_known).1
  obtain ⟨host, hhost⟩ := Option.isSome_iff_exists.mp (isSome_host?_override_iff.mpr h.known)
  exact ⟨host, hanswer.trans hhost, host?_override_eq_some_iff.mp hhost⟩

/-- The host that is known first stays. -/
theorem IsFirst.state_eq (h : i.IsFirst first) (hn : first < n) :
    (i.state n).1 = { i.resolver with found := i.answer first } := by
  induction n, hn using Nat.le_induction with
  | base =>
    have hresolver := state_of_not_known h.not_known
    obtain ⟨-, hstate, -⟩ := step_of_not_found (by rw [hresolver]; rfl)
    rw [hstate, hresolver]
  | succ n _ ih =>
    obtain ⟨host, hhost, -⟩ := h.exists_answer
    obtain ⟨-, hstate, -⟩ := step_of_found (by rw [ih, hhost])
    exact hstate.trans ih

/-- Later calls return the host that is known first, and do nothing. -/
theorem IsFirst.answer_eq (h : i.IsFirst first) (hn : first < n) :
    i.answer n = i.answer first ∧ i.left n = i.session n := by
  obtain ⟨host, hhost, -⟩ := h.exists_answer
  obtain ⟨hanswer, -, hleft⟩ := step_of_found (by rw [h.state_eq hn, hhost])
  exact ⟨hanswer.trans hhost.symm, hleft⟩

theorem IsFirst.answer_of_le (h : i.IsFirst first) (hn : first ≤ n) :
    i.answer n = i.answer first := by
  obtain hlt | rfl := Nat.lt_or_eq_of_le hn
  · exact (h.answer_eq hlt).1
  · rfl

/-- Every call returns what the first findings give that give a host, if there were any so far. -/
theorem answer_cases (i : Inquiry) (n : ℕ) :
    ((∀ k ≤ n, ¬i.Known k) ∧ i.answer n = none) ∨
      ∃ first ≤ n, i.IsFirst first ∧ i.answer n = i.answer first := by
  by_cases h : ∃ k, k ≤ n ∧ i.Known k
  · obtain ⟨hle, hknown⟩ := Nat.find_spec h
    have hfirst : i.IsFirst (Nat.find h) := ⟨hknown, fun k hk hknown =>
      Nat.find_min h hk ⟨Nat.le_trans (Nat.le_of_lt hk) hle, hknown⟩⟩
    exact .inr ⟨Nat.find h, hle, hfirst, hfirst.answer_of_le hle⟩
  · have hnone : ∀ k ≤ n, ¬i.Known k := fun k hk hknown => h ⟨k, hk, hknown⟩
    refine .inl ⟨hnone, ?_⟩
    rw [(answer_of_not_known fun k hk => hnone k (Nat.le_of_lt hk)).1,
      ← Option.not_isSome_iff_eq_none, isSome_host?_override_iff]
    exact hnone n (Nat.le_refl n)

/-- Each call asks the probe once, up to the one that finds both parts known: the calls before that
one return nothing, and it returns a host. All later calls return this host and do nothing. In every
host that is returned, overridden parts are the overrides in lower case. -/
theorem asks_until_known (i : Inquiry) (n : ℕ) :
    ((∀ k < n, ¬i.Known k) →
      i.AsksOnce n ∧ (∀ asked, i.Counts asked → asked (i.left n) = asked (i.session n) + 1) ∧
      (¬i.Known n → i.answer n = none) ∧
      (i.Known n → ∃ host, i.answer n = some host ∧ i.resolver.Yields (i.findings n) host)) ∧
    (∀ first < n, i.Known first → (∀ k < first, ¬i.Known k) →
      i.left n = i.session n ∧ (i.answer n).isSome ∧ i.answer n = i.answer first) ∧
    ∀ host, i.answer n = some host →
      (∀ platform, i.platform = some platform → host.platform = Text.toLower platform) ∧
      ∀ arch, i.arch = some arch → host.arch = Text.toLower arch := by
  refine ⟨fun h => ?_, fun first hlt hknown hnone => ?_, fun host hhost => ?_⟩
  · obtain ⟨hanswer, hasks⟩ := answer_of_not_known h
    refine ⟨hasks, fun asked hcounts => hasks.count hcounts, fun hn => ?_, fun hn => ?_⟩
    · rwa [hanswer, ← Option.not_isSome_iff_eq_none, isSome_host?_override_iff]
    · exact IsFirst.exists_answer ⟨hn, h⟩
  · have hfirst : i.IsFirst first := ⟨hknown, hnone⟩
    obtain ⟨hanswer, hleft⟩ := hfirst.answer_eq hlt
    obtain ⟨host, hhost, -⟩ := hfirst.exists_answer
    exact ⟨hleft, by rw [hanswer, hhost]; rfl, hanswer⟩
  · obtain ⟨-, hnone⟩ | ⟨first, -, hfirst, hanswer⟩ := i.answer_cases n
    · rw [hnone] at hhost
      cases hhost
    · obtain ⟨host', hhost', hyields⟩ := hfirst.exists_answer
      obtain rfl : host' = host := Option.some.inj (hhost'.symm.trans (hanswer.symm.trans hhost))
      exact ⟨hyields.platform_of_override, hyields.arch_of_override⟩

/-- A probe that prints a mark whenever it is asked, and finds out what it is told to. -/
def recite (findings : ℕ → Findings) (n : ℕ) : Probe := do
  Session.print [byte '.']
  return findings n

/-- The marks tell how often such a probe has been asked. -/
theorem counts_recite {findings : ℕ → Findings} (h : i.probe = recite findings) :
    i.Counts fun s => s.out.length where
  probe n s := by
    rw [h]
    exact List.length_append
  log level module message s := by rw [Session.out_log]

/-- One half, nothing, the other half, and then another host. -/
def halves : ℕ → Findings
  | 0 => ⟨none, some (utf8 "x86")⟩
  | 1 => {}
  | 2 => ⟨some (utf8 "linux"), none⟩
  | _ => ⟨some (utf8 "windows"), some (utf8 "x86")⟩

/-- With the architecture overridden, the third call finds the host, and the last findings are never
asked for. -/
theorem asks_until_known_of_halves :
    let i : Inquiry := { arch := some (utf8 "ARM64"), probe := recite halves }
    i.answer 0 = none ∧ i.answer 1 = none ∧
      (∃ host, i.answer 2 = some host ∧ host.platform = utf8 "linux" ∧
        host.arch = utf8 "arm64" ∧ i.answer 3 = some host) ∧
      (i.left 2).out.length = (i.session 2).out.length + 1 ∧ i.left 3 = i.session 3 := by
  intro i
  have hnone : ∀ k < 2, ¬i.Known k := by decide +kernel
  have hknown : i.Known 2 := by decide +kernel
  obtain ⟨-, hcount, -, hhost⟩ := (i.asks_until_known 2).1 hnone
  obtain ⟨host, hhost, hyields⟩ := hhost hknown
  obtain ⟨hsame, -, hlater⟩ := (i.asks_until_known 3).2.1 2 (by decide) hknown hnone
  refine ⟨?_, ?_, ⟨host, hhost, ?_, ?_, hlater.trans hhost⟩,
    hcount _ (counts_recite rfl), hsame⟩
  · exact ((i.asks_until_known 0).1 (by decide)).2.2.1 (by decide +kernel)
  · exact ((i.asks_until_known 1).1 (by decide +kernel)).2.2.1 (by decide +kernel)
  · exact (Option.some.inj (hyields.platform_of_findings rfl)).symm
  · exact (hyields.arch_of_override _ rfl).trans (by decide +kernel)

end Inquiry

end NativeBuild.Host
