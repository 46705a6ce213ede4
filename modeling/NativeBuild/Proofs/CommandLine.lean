import Mathlib.Data.List.Basic
import NativeBuild.CommandLine
import NativeBuild.Proofs.Log.Options

/-!
# Two readers of one command line

The logger and the command read the same arguments. The logging options are left out before the
command reads, and the logger passes over everything else, so it does not matter where the options
stand: each argument is read by one of the two, and the other one does not hear of it. What the
command reads is the last configuration file and the last source cache, the arguments that are no
options in their order, and the first option that it does not know.
-/
namespace NativeBuild.CommandLine

/-- The arguments that are left to the command. -/
def left (arguments : List Text) : List Text :=
  arguments.filter fun a => !Log.Options.isOption a

/-- An option that the command does not know. -/
def isUnknown (argument : Text) : Bool :=
  (utf8 "--").isPrefixOf argument && !(utf8 "--config=").isPrefixOf argument
    && !(utf8 "--source-cache=").isPrefixOf argument

/-- The last configuration file that is named, or the usual one. -/
def manifestOf (behind : List Text) : Path :=
  (Text.lastBehind? (utf8 "--config=") behind).getD (utf8 "aotb.toml")

/-- The last source cache that is named. -/
def sourceOf (behind : List Text) : Path :=
  (Text.lastBehind? (utf8 "--source-cache=") behind).getD []

/-- The arguments that are no options. -/
def positional (behind : List Text) : List Text :=
  behind.filter fun a => !(utf8 "--").isPrefixOf a

/-- What stands in place of a command to be told something. -/
def informing : List Text := [utf8 "--help", utf8 "-h", utf8 "--version", utf8 "-V"]

/-- What some arguments ask for. An option that the command does not know comes before everything
else that stands behind the command. -/
inductive Asks : List Text → Request → Prop
  | nothing : Asks [] .help
  | help {command : Text} (behind : List Text) (h : command = utf8 "--help" ∨ command = utf8 "-h") :
    Asks (command :: behind) .help
  | version {command : Text} (behind : List Text)
    (h : command = utf8 "--version" ∨ command = utf8 "-V") : Asks (command :: behind) .version
  | unknownOption {command option : Text} {behind : List Text} (hcommand : command ∉ informing)
    (h : behind.find? isUnknown = some option) : Asks (command :: behind) (.unknownOption option)
  | build {behind : List Text} (hknown : behind.find? isUnknown = none) :
    Asks (utf8 "build" :: behind) (.build (manifestOf behind))
  | compileLink {behind : List Text} (hknown : behind.find? isUnknown = none)
    (hsource : sourceOf behind ≠ []) :
    Asks (utf8 "compile-link" :: behind) (.compileLink (manifestOf behind) (sourceOf behind))
  | missingSource {behind : List Text} (hknown : behind.find? isUnknown = none)
    (hsource : sourceOf behind = []) : Asks (utf8 "compile-link" :: behind) .missingSource
  | toolchains {behind : List Text} (hknown : behind.find? isUnknown = none) :
    Asks (utf8 "toolchains" :: behind) (.toolchains (manifestOf behind))
  | platform {behind : List Text} {platform : Text} (hknown : behind.find? isUnknown = none)
    (h : positional behind = [platform]) : Asks (utf8 "triple" :: behind) (.triple platform [])
  | triple {behind : List Text} {platform arch : Text} (hknown : behind.find? isUnknown = none)
    (h : positional behind = [platform, arch]) :
    Asks (utf8 "triple" :: behind) (.triple platform arch)
  | wrongTriple {behind : List Text} (hknown : behind.find? isUnknown = none)
    (h : (positional behind).length ≠ 1 ∧ (positional behind).length ≠ 2) :
    Asks (utf8 "triple" :: behind) .wrongTriple
  | unknownCommand {command : Text} {behind : List Text} (hcommand : command ∉ informing)
    (hunknown : command ∉ [utf8 "build", utf8 "compile-link", utf8 "toolchains", utf8 "triple"])
    (hknown : behind.find? isUnknown = none) : Asks (command :: behind) (.unknownCommand command)

namespace Reading

/-- What has been read of some arguments behind a command. Nothing is read behind an option that
the command does not know. -/
structure Holds (behind : List Text) (r : Reading) : Prop where
  unknown : r.unknown = behind.find? isUnknown
  manifest : r.unknown = none → r.manifest = manifestOf behind
  source : r.unknown = none → r.source = sourceOf behind
  others : r.unknown = none → r.others = positional behind

theorem manifestOf_concat (behind : List Text) (argument : Text) :
    manifestOf (behind ++ [argument]) =
      (Text.dropHead? (utf8 "--config=") argument).getD (manifestOf behind) := by
  unfold manifestOf
  rw [Text.lastBehind?_concat]
  cases Text.dropHead? (utf8 "--config=") argument <;> rfl

theorem sourceOf_concat (behind : List Text) (argument : Text) :
    sourceOf (behind ++ [argument]) =
      (Text.dropHead? (utf8 "--source-cache=") argument).getD (sourceOf behind) := by
  unfold sourceOf
  rw [Text.lastBehind?_concat]
  cases Text.dropHead? (utf8 "--source-cache=") argument <;> rfl

theorem positional_concat (behind : List Text) (argument : Text) :
    positional (behind ++ [argument]) =
      positional behind ++ if (utf8 "--").isPrefixOf argument then [] else [argument] := by
  unfold positional
  rw [List.filter_append]
  cases h : (utf8 "--").isPrefixOf argument <;> simp [h]

theorem find?_isUnknown_concat (behind : List Text) (argument : Text) :
    (behind ++ [argument]).find? isUnknown =
      (behind.find? isUnknown).or (if isUnknown argument then some argument else none) := by
  rw [List.find?_append, List.find?_singleton]

/-- Each argument is taken in one way, unless an unknown option stands before it. -/
theorem Holds.push {behind : List Text} {r : Reading} (h : r.Holds behind) (argument : Text) :
    (r.push argument).Holds (behind ++ [argument]) := by
  have hbefore := h.unknown
  cases hfirst : r.unknown with
  | some option =>
    have hpush : r.push argument = r := by simp [Reading.push, hfirst]
    rw [hfirst] at hbefore
    have hnot : r.unknown ≠ none := by simp [hfirst]
    rw [hpush]
    refine ⟨?_, fun hnone => absurd hnone hnot, fun hnone => absurd hnone hnot,
      fun hnone => absurd hnone hnot⟩
    rw [find?_isUnknown_concat, ← hbefore, hfirst, Option.some_or]
  | none =>
    have hmanifest := h.manifest hfirst
    have hsource := h.source hfirst
    have hothers := h.others hfirst
    rw [hfirst] at hbefore
    have hunknown : (behind ++ [argument]).find? isUnknown =
        if isUnknown argument then some argument else none := by
      rw [find?_isUnknown_concat, ← hbefore, Option.none_or]
    unfold Reading.push
    simp only [hfirst, Option.isSome_none, Bool.false_eq_true, if_false]
    split
    · next path hconfig =>
      obtain rfl := Text.eq_append_of_dropHead? hconfig
      have hknown : isUnknown (utf8 "--config=" ++ path) = false := rfl
      have hother : Text.dropHead? (utf8 "--source-cache=") (utf8 "--config=" ++ path) = none := rfl
      have hoption : (utf8 "--").isPrefixOf (utf8 "--config=" ++ path) = true := rfl
      constructor <;>
        simp [hunknown, hknown, manifestOf_concat, sourceOf_concat, positional_concat, hconfig,
          hother, hoption, hsource, hothers]
    · next hconfig =>
      split
      · next path hcache =>
        obtain rfl := Text.eq_append_of_dropHead? hcache
        have hknown : isUnknown (utf8 "--source-cache=" ++ path) = false := rfl
        have hoption : (utf8 "--").isPrefixOf (utf8 "--source-cache=" ++ path) = true := rfl
        constructor <;>
          simp [hunknown, hknown, manifestOf_concat, sourceOf_concat, positional_concat, hconfig,
            hcache, hoption, hmanifest, hothers]
      · next hcache =>
        have hform : isUnknown argument = (utf8 "--").isPrefixOf argument := by
          simp [isUnknown, Text.isPrefixOf_eq (utf8 "--config="),
            Text.isPrefixOf_eq (utf8 "--source-cache="), hconfig, hcache]
        split
        · next hoption =>
          constructor <;> simp [hunknown, hform, hoption]
        · next hoption =>
          constructor <;>
            simp [hunknown, hform, manifestOf_concat, sourceOf_concat, positional_concat, hconfig,
              hcache, hoption, hmanifest, hsource, hothers]

theorem holds_foldl_push (behind : List Text) : (behind.foldl Reading.push {}).Holds behind := by
  induction behind using List.reverseRecOn with
  | nil => exact ⟨rfl, fun _ => rfl, fun _ => rfl, fun _ => rfl⟩
  | append_singleton behind argument ih =>
    rw [List.foldl_append]
    exact ih.push argument

end Reading

section Behind

variable {command : Text} {behind : List Text} (hcommand : command ∉ informing)
include hcommand

/-- Behind a command, its request is read from the other arguments. -/
theorem parse_cons_of_command :
    Request.parse (command :: behind) = (behind.foldl Reading.push {}).request command := by
  simp only [informing, List.mem_cons, List.not_mem_nil, or_false, not_or] at hcommand
  simp [Request.parse, hcommand]

theorem parse_of_unknown {option : Text} (h : behind.find? isUnknown = some option) :
    Request.parse (command :: behind) = .unknownOption option := by
  rw [parse_cons_of_command hcommand, Reading.request, (Reading.holds_foldl_push behind).unknown, h]

theorem parse_of_known (h : behind.find? isUnknown = none) :
    Request.parse (command :: behind) =
      Reading.request
        { manifest := manifestOf behind, source := sourceOf behind, others := positional behind }
        command := by
  have hread := Reading.holds_foldl_push behind
  rw [parse_cons_of_command hcommand]
  generalize behind.foldl Reading.push {} = r at hread
  have hunknown : r.unknown = none := hread.unknown.trans h
  rw [← hread.manifest hunknown, ← hread.source hunknown, ← hread.others hunknown, ← hunknown]

end Behind

/-- The request is the one that the arguments ask for. -/
theorem asks_parse (arguments : List Text) : Asks arguments (Request.parse arguments) := by
  cases arguments with
  | nil => exact .nothing
  | cons command behind =>
  by_cases hhelp : command = utf8 "--help" ∨ command = utf8 "-h"
  · rw [Request.parse, if_pos hhelp]
    exact .help behind hhelp
  by_cases hversion : command = utf8 "--version" ∨ command = utf8 "-V"
  · rw [Request.parse, if_neg hhelp, if_pos hversion]
    exact .version behind hversion
  have hcommand : command ∉ informing := by
    simp only [informing, List.mem_cons, List.not_mem_nil, or_false]
    tauto
  cases hfirst : behind.find? isUnknown with
  | some option =>
    rw [parse_of_unknown hcommand hfirst]
    exact .unknownOption hcommand hfirst
  | none =>
    rw [parse_of_known hcommand hfirst]
    unfold Reading.request
    dsimp only
    split
    · next hbuild => exact hbuild ▸ .build hfirst
    next hbuild =>
    split
    · next hlink =>
      subst hlink
      split
      · next hsource => exact .missingSource hfirst hsource
      · next hsource => exact .compileLink hfirst hsource
    next hlink =>
    split
    · next hlist => exact hlist ▸ .toolchains hfirst
    next hlist =>
    split
    · next htriple =>
      subst htriple
      split
      · next platform hone => exact .platform hfirst hone
      · next platform arch htwo => exact .triple hfirst htwo
      · next hone htwo =>
        refine .wrongTriple hfirst ⟨fun hlength => ?_, fun hlength => ?_⟩
        · obtain ⟨platform, heq⟩ := List.length_eq_one_iff.mp hlength
          exact hone platform heq
        · obtain ⟨platform, arch, heq⟩ := List.length_eq_two.mp hlength
          exact htwo platform arch heq
    · next htriple =>
      exact .unknownCommand hcommand (by simp [hbuild, hlink, hlist, htriple]) hfirst

/-- Nothing else is asked for. -/
theorem Asks.eq_parse {arguments : List Text} {request : Request} (h : Asks arguments request) :
    request = Request.parse arguments := by
  symm
  cases h with
  | nothing => rfl
  | help behind h => rw [Request.parse, if_pos h]
  | version behind h => obtain rfl | rfl := h <;> rfl
  | unknownOption hcommand h => exact parse_of_unknown hcommand h
  | build hknown => exact parse_of_known (by decide) hknown
  | compileLink hknown hsource =>
    rw [parse_of_known (by decide) hknown]
    exact if_neg hsource
  | missingSource hknown hsource =>
    rw [parse_of_known (by decide) hknown]
    exact if_pos hsource
  | toolchains hknown => exact parse_of_known (by decide) hknown
  | platform hknown h =>
    rw [parse_of_known (by decide) hknown, h]
    rfl
  | triple hknown h =>
    rw [parse_of_known (by decide) hknown, h]
    rfl
  | @wrongTriple behind hknown h =>
    rw [parse_of_known (by decide) hknown]
    generalize positional behind = others at h
    match others, h with
    | [], _ => rfl
    | [_], h => exact absurd rfl h.1
    | [_, _], h => exact absurd rfl h.2
    | _ :: _ :: _ :: _, _ => rfl
  | unknownCommand hcommand hunknown hknown =>
    simp only [List.mem_cons, List.not_mem_nil, or_false, not_or] at hunknown
    rw [parse_of_known hcommand hknown]
    simp [Reading.request, hunknown]

@[simp] theorem left_append (arguments more : List Text) :
    left (arguments ++ more) = left arguments ++ left more := List.filter_append ..

/-- The logger is set up by the options alone, and the other arguments alone make the request: each
option sets what it gives unless a later one gives it again, and so does each argument behind the
command. Wherever an argument stands, one of the two readers knows it, and for the other one it might
as well be missing. -/
theorem arguments_divided (arguments : List Text) (setting : Option Text) :
    let options := arguments.filter Log.Options.isOption
    let others := arguments.filter fun a => !Log.Options.isOption a
    (Log.Options.parse arguments setting = Log.Options.parse options setting ∧
      Log.Options.Configures options setting (Log.Options.parse arguments setting)) ∧
    (∃ request, (∀ asked, Asks others asked ↔ asked = request) ∧
      run arguments = (do
        Session.startLog (Log.Options.parse options ((← get).variables.get? (utf8 "AOTB_LOG")))
        request.perform)) ∧
    ∀ before argument after, arguments = before ++ argument :: after →
      (Log.Options.Known argument ∧ left (before ++ after) = others) ∨
      (¬Log.Options.Known argument ∧ ∀ setting,
        Log.Options.parse (before ++ after) setting = Log.Options.parse arguments setting) := by
  intro options others
  have hparse := Log.Options.parse_filter arguments
  refine ⟨⟨(hparse setting).symm, ?_⟩, ⟨Request.parse others, fun asked => ⟨Asks.eq_parse, ?_⟩, ?_⟩,
    ?_⟩
  · rw [← hparse setting]
    exact Log.Options.configures_parse options setting
  · rintro rfl
    exact asks_parse others
  · simp only [options, hparse]
    rfl
  · rintro before argument after rfl
    rw [← Log.Options.isOption_iff_known, Bool.not_eq_true]
    cases h : Log.Options.isOption argument with
    | true =>
      refine .inl ⟨rfl, ?_⟩
      simp [left, others, h]
    | false =>
      refine .inr ⟨rfl, fun other => ?_⟩
      rw [← Log.Options.parse_filter, ← Log.Options.parse_filter (before ++ argument :: after)]
      simp [h]

/-- An argument that only looks like a logging option is left to the command. -/
example : left [utf8 "-vV", utf8 "-vv", utf8 "--log-level"] = [utf8 "-vV", utf8 "--log-level"] := by
  decide +kernel

end NativeBuild.CommandLine
