import NativeBuild.Build.Collaborators
import NativeBuild.Proofs.Shell.Losses

/-!
# The command line that compiles and links

The native library brings five settings of its own. The two paths among them stand between quotes,
so they arrive whatever they are made of. The platform, the architecture and the configuration stand
as they are behind the names of their options: they arrive if no byte of them has a meaning for the
shell. A blank or an operator in one of them ends the word too early, quotes and backslashes are
lost, and what a dollar sign or a back quote starts is replaced.
-/
namespace NativeBuild

open Shell

open Shell.Item

namespace BuildOptions

theorem isInert_join {parts : List Text} (h : parts.all (·.all isInert) = true) :
    (Text.join (utf8 ",") parts).all isInert = true := by
  have hcomma : (utf8 ",").all isInert = true := by decide
  induction parts with
  | nil => rfl
  | cons part parts ih =>
    rw [List.all_cons, Bool.and_eq_true] at h
    cases parts with
    | nil => simpa [Text.join, List.intercalate] using h.1
    | cons next parts =>
      have hjoin : Text.join (utf8 ",") (part :: next :: parts) =
          part ++ (utf8 "," ++ Text.join (utf8 ",") (next :: parts)) := by
        simp [Text.join, List.intercalate]
      rw [hjoin, List.all_append, List.all_append, h.1, hcomma, ih h.2]
      rfl

/-- No definition of a build has a byte with a meaning for the shell. -/
theorem isInert_defines {o : BuildOptions} {defines : List Text} (h : o.defines = .ok defines) :
    defines.all (·.all isInert) = true := by
  have hprofile : ∀ (profile : Profile) (found : List Text), profileDefines? profile = some found →
      found.all (·.all isInert) = true := by
    intro profile found hfound
    cases profile <;> cases hfound <;> decide +kernel
  have htarget : ∀ target : Target, (targetDefines target).all (·.all isInert) = true := by
    intro target
    cases target <;> decide +kernel
  have hfeatures : o.featureDefines.all (·.all isInert) = true := by
    unfold featureDefines
    generalize o.debugs = debugs, o.validatesBarriers = validates, o.slicesTime = slices
    revert debugs validates slices
    decide +kernel
  unfold BuildOptions.defines at h
  split at h
  · cases h
  · next found hfound =>
    obtain rfl := Except.ok.inj h
    simp [hprofile _ _ hfound, htarget, hfeatures]

end BuildOptions

namespace NativeLibrary

variable {n : NativeLibrary} {output : Path} {defines : List Text}

/-- The options that compile and link, each with the value that it is for. -/
def items (n : NativeLibrary) (output : Path) (defines : List Text) : List Item :=
  [{ name := utf8 "--compile-cpp" }, plain "--platform=" n.platform]
    ++ (if n.architecture = [] then [] else [plain "--architecture=" n.architecture])
    ++ [plain "--configuration=" n.configuration, valued "--outputpath=" output]
    ++ (if n.cache = [] then [] else [valued "--cachedirectory=" n.cache])
    ++ (if defines = [] then []
        else [plain "--additional-defines=" (Text.join (utf8 ",") defines)])

/-- The settings that stand on the command line as they are. -/
def unquoted (n : NativeLibrary) : List Text := [n.platform, n.architecture, n.configuration]

/-- All that they are made of. -/
def spelled (n : NativeLibrary) : Text := n.platform ++ n.architecture ++ n.configuration

theorem map_written_items (n : NativeLibrary) (output : Path) (defines : List Text) :
    (n.items output defines).map written = n.arguments output defines := by
  by_cases harchitecture : n.architecture = [] <;> by_cases hcache : n.cache = [] <;>
    by_cases hdefines : defines = [] <;>
    simp [items, arguments, harchitecture, hcache, hdefines, plain, valued, written]

theorem forall_items_iff {P : Item → Prop} :
    (∀ i ∈ n.items output defines, P i) ↔
      P { name := utf8 "--compile-cpp" } ∧ P (plain "--platform=" n.platform) ∧
        (n.architecture ≠ [] → P (plain "--architecture=" n.architecture)) ∧
        P (plain "--configuration=" n.configuration) ∧ P (valued "--outputpath=" output) ∧
        (n.cache ≠ [] → P (valued "--cachedirectory=" n.cache)) ∧
        (defines ≠ [] → P (plain "--additional-defines=" (Text.join (utf8 ",") defines))) := by
  by_cases harchitecture : n.architecture = [] <;> by_cases hcache : n.cache = [] <;>
    by_cases hdefines : defines = [] <;>
    simp [items, harchitecture, hcache, hdefines]

section Arriving

variable {o : BuildOptions} (hdefines : o.defines = .ok defines) (houtput : 0 ∉ output)
  (hcache : 0 ∉ n.cache)
include hdefines houtput hcache

/-- The options whose values are quoted, or are no settings, are literal anyway. -/
theorem isLiteral_others :
    IsLiteral { name := utf8 "--compile-cpp" } ∧ (valued "--outputpath=" output).IsLiteral ∧
      (valued "--cachedirectory=" n.cache).IsLiteral ∧
      (plain "--additional-defines=" (Text.join (utf8 ",") defines)).IsLiteral := by
  have hjoined := BuildOptions.isInert_join (BuildOptions.isInert_defines hdefines)
  refine ⟨isLiteral_name (by decide +kernel), isLiteral_valued (by decide +kernel) houtput,
    isLiteral_valued (by decide +kernel) hcache, ?_⟩
  exact isLiteral_plain (by decide +kernel) (List.all_eq_true.mp hjoined)

theorem isLiteral_items (hinert : ∀ b ∈ n.spelled, isInert b = true) :
    ∀ i ∈ n.items output defines, i.IsLiteral := by
  obtain ⟨hcompile, houtput, hcache, hjoined⟩ := isLiteral_others hdefines houtput hcache
  simp only [spelled, List.mem_append, or_imp, forall_and] at hinert
  obtain ⟨⟨hplatform, harchitecture⟩, hconfiguration⟩ := hinert
  rw [forall_items_iff]
  exact ⟨hcompile, isLiteral_plain (by decide +kernel) hplatform,
    fun _ => isLiteral_plain (by decide +kernel) harchitecture,
    isLiteral_plain (by decide +kernel) hconfiguration, houtput, fun _ => hcache, fun _ => hjoined⟩

/-- Where the options arrive, the shell acts on none of the settings that are not quoted, whatever
bytes these are made of. -/
theorem not_isActive_of_arguments_split {s : ProcessSpec} (hexecutable : 0 ∉ s.executable)
    (harguments : s.arguments = n.arguments output defines)
    (h : SplitsInto s.commandLine (s.executable :: (n.items output defines).map meant)) :
    ∀ setting ∈ n.unquoted, isActive setting = false := by
  obtain ⟨hcompile, houtput, hcache, hjoined⟩ := isLiteral_others hdefines houtput hcache
  have hitems : ∀ i ∈ n.items output defines, i.IsOption := by
    rw [forall_items_iff]
    exact ⟨.inl hcompile, .inr ⟨_, _, rfl, by decide +kernel⟩,
      fun _ => .inr ⟨_, _, rfl, by decide +kernel⟩, .inr ⟨_, _, rfl, by decide +kernel⟩,
      .inl houtput, fun _ => .inl hcache, fun _ => .inl hjoined⟩
  -- A quoted path or the definitions stand last.
  have hlast : ∀ i ∈ (n.items output defines).getLast?, i.IsLiteral := by
    by_cases hnoarchitecture : n.architecture = [] <;> by_cases hnocache : n.cache = [] <;>
      by_cases hnodefines : defines = [] <;>
      simp [items, hnoarchitecture, hnocache, hnodefines, houtput, hcache, hjoined]
  have hactive := ProcessSpec.not_isActive_of_words? hexecutable
    (harguments.trans (n.map_written_items output defines).symm) hitems hlast h.words
  rw [forall_items_iff] at hactive
  obtain ⟨-, hplatform, harchitecture, hconfiguration, -⟩ := hactive
  simp only [unquoted, List.mem_cons, List.not_mem_nil, or_false, forall_eq_or_imp, forall_eq]
  refine ⟨isActive_of_append hplatform, ?_, isActive_of_append hconfiguration⟩
  by_cases hnil : n.architecture = []
  · rw [hnil]
    rfl
  · exact isActive_of_append (harchitecture hnil)

/-- The shell splits the command line into the executable and one word for each option, its name and
the value as it is, and expands nothing, if no byte of the settings that are not quoted has a
meaning for it. Where it acts on a byte of one of them, because that ends words, quotes or starts an
expansion, the options do not arrive. -/
theorem arguments_split_iff {s : ProcessSpec} (hexecutable : 0 ∉ s.executable)
    (harguments : s.arguments = n.arguments output defines)
    (hsettings : ∀ setting ∈ n.unquoted,
      (∀ b ∈ setting, isInert b = true) ∨ isActive setting = true) :
    SplitsInto s.commandLine (s.executable :: (n.items output defines).map meant) ↔
      ∀ b ∈ n.spelled, isInert b = true := by
  constructor
  · intro hsplits
    have hactive := not_isActive_of_arguments_split hdefines houtput hcache hexecutable harguments
      hsplits
    have hinert : ∀ setting ∈ n.unquoted, ∀ b ∈ setting, isInert b = true := by
      intro setting hsetting
      refine (hsettings setting hsetting).resolve_right ?_
      rw [hactive setting hsetting]
      exact Bool.false_ne_true
    simpa [unquoted, spelled, or_imp, forall_and, and_assoc] using hinert
  · intro hinert
    exact s.splitsInto_commandLine hexecutable
      (harguments.trans (n.map_written_items output defines).symm)
      (isLiteral_items hdefines houtput hcache hinert)

end Arriving

/-- A library with a cache that the shell would act on, for some platform. -/
def cachedLibrary (platform : Text) : NativeLibrary :=
  { platform, architecture := utf8 "x86_64", cache := utf8 "/$(c)\n" }

/-- Links the library on some platform into an output whose path has a quote. -/
def linkingSpec (platform : Text) : ProcessSpec where
  executable := utf8 "/g h"
  arguments := (cachedLibrary platform).arguments (utf8 "/o\"") BuildOptions.commonDefines

theorem arguments_split_iff_of_platforms :
    let fields := fun platform : Text =>
      utf8 "/g h" :: ((cachedLibrary platform).items (utf8 "/o\"")
        BuildOptions.commonDefines).map meant
    SplitsInto (linkingSpec (utf8 "linux")).commandLine (fields (utf8 "linux")) ∧
      ∀ platform ∈ [utf8 "linux;id", utf8 "$HOME", utf8 "`id`", utf8 "a\"b", utf8 "a\\b"],
        ¬SplitsInto (linkingSpec platform).commandLine (fields platform) := by
  have hdefines : BuildOptions.defines { profile := .net20 } = .ok BuildOptions.commonDefines := rfl
  have houtput : 0 ∉ utf8 "/o\"" := by decide +kernel
  have hcache : 0 ∉ utf8 "/$(c)\n" := by decide +kernel
  have hexecutable : 0 ∉ utf8 "/g h" := by decide +kernel
  have hsplits (platform : Text) := arguments_split_iff hdefines houtput
    (n := cachedLibrary platform) hcache (s := linkingSpec platform) hexecutable rfl
  refine ⟨(hsplits _ (by decide +kernel)).mpr (by decide +kernel), ?_⟩
  have hacted : ∀ platform ∈ [utf8 "linux;id", utf8 "$HOME", utf8 "`id`", utf8 "a\"b", utf8 "a\\b"],
      (∀ setting ∈ (cachedLibrary platform).unquoted,
        (∀ b ∈ setting, isInert b = true) ∨ isActive setting = true) ∧
      ¬∀ b ∈ (cachedLibrary platform).spelled, isInert b = true := by
    decide +kernel
  intro platform hplatform
  exact mt (hsplits platform (hacted platform hplatform).1).mp (hacted platform hplatform).2

end NativeLibrary

end NativeBuild
