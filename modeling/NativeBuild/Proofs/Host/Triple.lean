import NativeBuild.Host
import NativeBuild.Proofs.Text

/-!
# Host and target in one word

A target stands alone if the host is written in the same way. The platform of the host is written
under its common name for that, and the target's as it is given, so a target that has another name
of its platform never stands alone. Two pairs of different parts are written in the same way only if
a piece with a dash belongs to the platform of one and to the architecture of the other.
-/
namespace NativeBuild.Host

/-- The name under which a platform is written, if it has two. -/
def commonName (platform : Text) : Text :=
  if platform = utf8 "darwin" then utf8 "macos"
  else if platform = utf8 "windows" then utf8 "win"
  else platform

/-- Host and target are the same platform, whichever name it has, and the same architecture. -/
def IsTarget (h : Host) (platform arch : Text) : Prop :=
  commonName h.platform = commonName platform ∧ h.arch = arch

instance (h : Host) (platform arch : Text) : Decidable (h.IsTarget platform arch) :=
  inferInstanceAs (Decidable (_ ∧ _))

/-- A piece that ends at a dash belongs to the platform of one, and to the architecture of the
other. -/
def Straddles (h : Host) (platform arch : Text) : Prop :=
  (∃ piece, commonName h.platform = platform ++ byte '-' :: piece ∧
      arch = piece ++ byte '-' :: h.arch) ∨
    ∃ piece, platform = commonName h.platform ++ byte '-' :: piece ∧
      h.arch = piece ++ byte '-' :: arch

variable {h : Host} {platform arch : Text}

@[simp] theorem commonName_commonName (platform : Text) :
    commonName (commonName platform) = commonName platform := by
  by_cases hmac : platform = utf8 "darwin"
  · subst hmac
    decide
  by_cases hwindows : platform = utf8 "windows"
  · subst hwindows
    decide
  · have hsame : commonName platform = platform := by
      rw [commonName, if_neg hmac, if_neg hwindows]
    rw [hsame, hsame]

theorem dash_mem_of_commonName (hdash : byte '-' ∈ commonName platform) : byte '-' ∈ platform := by
  unfold commonName at hdash
  split at hdash
  · exact absurd hdash (by decide)
  split at hdash
  · exact absurd hdash (by decide)
  · exact hdash

theorem label_eq (h : Host) : h.label = commonName h.platform ++ utf8 "-" ++ h.arch := rfl

theorem utf8_dash : utf8 "-" = [byte '-'] := by decide

theorem label_eq_iff : h.label = platform ++ utf8 "-" ++ arch ↔
    (h.IsTarget platform arch ∧ commonName platform = platform) ∨ h.Straddles platform arch := by
  have hparts : commonName h.platform = platform ∧ h.arch = arch ↔
      h.IsTarget platform arch ∧ commonName platform = platform := by
    constructor
    · rintro ⟨hplatform, harch⟩
      have hcommon : commonName platform = platform := by
        rw [← hplatform, commonName_commonName]
      exact ⟨⟨hplatform.trans hcommon.symm, harch⟩, hcommon⟩
    · rintro ⟨⟨hplatform, harch⟩, hcommon⟩
      exact ⟨hplatform.trans hcommon, harch⟩
  rw [label_eq, utf8_dash, List.append_assoc, List.append_assoc, List.singleton_append,
    List.singleton_append, Text.append_cons_eq_iff, hparts, Straddles]

/-- Parts that straddle a dash are different parts. -/
theorem Straddles.not_isTarget (hstraddles : h.Straddles platform arch) :
    ¬h.IsTarget platform arch := by
  rintro ⟨-, harch⟩
  obtain ⟨piece, -, hpiece⟩ | ⟨piece, -, hpiece⟩ := hstraddles
  · have hlength := congrArg List.length (harch.trans hpiece)
    simp at hlength
    omega
  · have hlength := congrArg List.length (hpiece.symm.trans harch)
    simp at hlength
    omega

/-- Nothing straddles a dash if there is none in the platforms, or none in the architectures. -/
theorem not_straddles
    (hdash : byte '-' ∉ h.platform ∧ byte '-' ∉ platform ∨ byte '-' ∉ h.arch ∧ byte '-' ∉ arch) :
    ¬h.Straddles platform arch := by
  rintro (⟨piece, hplatform, harch⟩ | ⟨piece, hplatform, harch⟩)
  · obtain ⟨hhost, -⟩ | ⟨-, htarget⟩ := hdash
    · exact hhost (dash_mem_of_commonName (by simp [hplatform]))
    · exact htarget (by simp [harch])
  · obtain ⟨-, htarget⟩ | ⟨hhost, -⟩ := hdash
    · exact htarget (by simp [hplatform])
    · exact hhost (by simp [harch])

/-- The target stands alone if it is the host and has the common name of its platform, or if a piece
with a dash changes sides between them, and otherwise it stands behind the host. So it depends on
the parts alone, if the platforms or the architectures have no dash. -/
theorem triple_alone_iff (h : Host) (platform arch : Text) :
    let target := platform ++ utf8 "-" ++ arch
    (h.triple platform arch = target ↔
      (h.IsTarget platform arch ∧ commonName platform = platform) ∨ h.Straddles platform arch) ∧
    (h.triple platform arch ≠ target →
      h.triple platform arch =
        commonName h.platform ++ utf8 "-" ++ h.arch ++ utf8 "-" ++ target) ∧
    (h.Straddles platform arch → ¬h.IsTarget platform arch) ∧
    (byte '-' ∉ h.platform ∧ byte '-' ∉ platform ∨ byte '-' ∉ h.arch ∧ byte '-' ∉ arch →
      commonName platform = platform →
      (h.triple platform arch = target ↔ h.IsTarget platform arch)) := by
  intro target
  have htriple : h.triple platform arch =
      if h.label = target then target else h.label ++ utf8 "-" ++ target := rfl
  have hlonger : h.label ++ utf8 "-" ++ target ≠ target := by
    intro heq
    have hlength := congrArg List.length heq
    simp only [List.length_append, utf8_dash, List.length_singleton] at hlength
    omega
  have halone : h.triple platform arch = target ↔ h.label = target := by
    rw [htriple]
    split
    · next hlabel => exact iff_of_true rfl hlabel
    · next hlabel => exact iff_of_false hlonger hlabel
  refine ⟨halone.trans label_eq_iff, fun hne => ?_, Straddles.not_isTarget, fun hdash hname => ?_⟩
  · rw [htriple, if_neg (mt halone.mpr hne), label_eq]
  · rw [halone, label_eq_iff]
    simp [hname, not_straddles hdash]

/-- A host and a target of different parts are written in the same way, and so are a host and a
target whose platform has another name for the host. -/
theorem triple_alone_of_straddling :
    let host : Host := ⟨utf8 "linux-gnu", utf8 "x86_64"⟩
    let mac : Host := ⟨utf8 "darwin", utf8 "arm64"⟩
    ¬host.IsTarget (utf8 "linux") (utf8 "gnu-x86_64") ∧
      host.triple (utf8 "linux") (utf8 "gnu-x86_64") = utf8 "linux-gnu-x86_64" ∧
      mac.triple (utf8 "macos") (utf8 "arm64") = utf8 "macos-arm64" := by
  intro host mac
  obtain ⟨halone, -, hdifferent, -⟩ :=
    triple_alone_iff host (utf8 "linux") (utf8 "gnu-x86_64")
  have hstraddles : host.Straddles (utf8 "linux") (utf8 "gnu-x86_64") :=
    .inl ⟨utf8 "gnu", by decide, by decide⟩
  obtain ⟨-, -, -, hmac⟩ := triple_alone_iff mac (utf8 "macos") (utf8 "arm64")
  have hdash : byte '-' ∉ mac.platform ∧ byte '-' ∉ utf8 "macos" := by decide
  refine ⟨hdifferent hstraddles, (halone.mpr (.inr hstraddles)).trans (by decide), ?_⟩
  exact ((hmac (.inl hdash) (by decide)).mpr (by decide)).trans (by decide)

/-- The other name of a platform is not taken for it. -/
example : (⟨utf8 "darwin", utf8 "arm64"⟩ : Host).triple (utf8 "darwin") (utf8 "arm64")
    = utf8 "macos-arm64-darwin-arm64" := by
  decide

end NativeBuild.Host
