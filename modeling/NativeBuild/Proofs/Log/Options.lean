import Mathlib.Data.List.Induction
import NativeBuild.Log.Options

/-!
# What the logger takes from a command line

The logging options are known by their form alone, and they are read by another function than the
one that knows them. The invariant of the reader is that each setting is the one of the last option
that gives it, and that the highest number of `v` counts. An argument that is no option leaves
everything as it was read so far, so the options alone set up the logger, wherever they stand.
-/
namespace NativeBuild

namespace Text

/-- What stands behind a head in the last of some texts that begin with it. -/
def lastBehind? (head : Text) (texts : List Text) : Option Text :=
  (texts.filter head.isPrefixOf).getLast?.map (·.drop head.length)

@[simp] theorem lastBehind?_nil (head : Text) : lastBehind? head [] = none := rfl

theorem lastBehind?_concat (head : Text) (texts : List Text) (t : Text) :
    lastBehind? head (texts ++ [t]) = (dropHead? head t).or (lastBehind? head texts) := by
  unfold lastBehind? dropHead?
  cases h : head.isPrefixOf t <;> simp [h]

theorem eq_append_of_dropHead? {head t v : Text} (h : dropHead? head t = some v) :
    t = head ++ v := by
  unfold dropHead? at h
  split at h
  · next hprefix =>
    obtain ⟨rest, rfl⟩ := List.isPrefixOf_iff_prefix.mp hprefix
    obtain rfl : rest = v := by simpa using h
    rfl
  · cases h

theorem isPrefixOf_eq (head t : Text) : head.isPrefixOf t = (dropHead? head t).isSome := by
  unfold dropHead?
  split <;> simp [*]

end Text

namespace Log.Options

/-- The arguments that set up the logger. -/
inductive Known : Text → Prop
  | level (name : Text) : Known (levelHead ++ name)
  | filter (spec : Text) : Known (filterHead ++ spec)
  | file (path : Text) : Known (fileHead ++ path)
  | format (name : Text) : Known (formatHead ++ name)
  | quiet : Known (utf8 "-q")
  | quietInFull : Known (utf8 "--quiet")
  | verbose (more : Nat) : Known (byte '-' :: List.replicate (more + 1) (byte 'v'))
  | verboseInFull : Known (utf8 "--verbose")

theorem verbosity_replicate (count : Nat) :
    verbosity (byte '-' :: List.replicate count (byte 'v')) = count := by
  cases count with
  | zero => rfl
  | succ more =>
    have hne : byte '-' :: List.replicate (more + 1) (byte 'v') ≠ utf8 "--verbose" := by
      intro h
      cases (List.cons.inj (List.cons.inj h).2).1
    simp [verbosity, hne]

theorem eq_replicate_of_verbosity {argument : Text} (h : 0 < verbosity argument) :
    argument = utf8 "--verbose" ∨
      ∃ more, argument = byte '-' :: List.replicate (more + 1) (byte 'v') := by
  unfold verbosity at h
  split at h
  · exact .inl (by assumption)
  · split at h
    · next b rest _ =>
      split at h
      · next hform =>
        obtain ⟨rfl, hne, hall⟩ := hform
        have hrest : rest = List.replicate rest.length (byte 'v') :=
          List.eq_replicate_of_mem fun b hb => by simpa using List.all_eq_true.mp hall b hb
        obtain ⟨more, hlength⟩ := Nat.exists_eq_succ_of_ne_zero (mt List.length_eq_zero_iff.mp hne)
        exact .inr ⟨more, by rw [hrest, hlength]⟩
      · cases h
    · cases h

/-- The options are known by their form. -/
theorem isOption_iff_known (argument : Text) : isOption argument = true ↔ Known argument := by
  constructor
  · intro h
    simp only [isOption, isQuiet, List.any_cons, List.any_nil, Bool.or_false, Bool.or_eq_true,
      Text.isPrefixOf_eq, Option.isSome_iff_exists, beq_iff_eq, decide_eq_true_eq] at h
    obtain ((⟨v, h⟩ | ⟨v, h⟩ | ⟨v, h⟩ | ⟨v, h⟩) | h | h) | h := h
    · exact Text.eq_append_of_dropHead? h ▸ .level v
    · exact Text.eq_append_of_dropHead? h ▸ .filter v
    · exact Text.eq_append_of_dropHead? h ▸ .file v
    · exact Text.eq_append_of_dropHead? h ▸ .format v
    · exact h ▸ .quiet
    · exact h ▸ .quietInFull
    · obtain rfl | ⟨more, rfl⟩ := eq_replicate_of_verbosity h
      · exact .verboseInFull
      · exact .verbose more
  · rintro (v | v | v | v | _ | _ | more | _)
    any_goals rfl
    simp [isOption, verbosity_replicate]

/-- The level that one option asks for, by its name or by asking for errors only. -/
def namedLevel? (argument : Text) : Option Level :=
  if isQuiet argument then some .error
  else (Text.dropHead? levelHead argument).map fun name => Level.ofName name

/-- The level that some options ask for: the last one named, or else the one for the highest number
of `v` in one of them. -/
def askedLevel? (options : List Text) : Option Level :=
  (options.filterMap namedLevel?).getLast?.or
    (levelOfVerbosity ((options.map verbosity).foldl max 0))

namespace Reading

/-- Each argument sets what it gives, and leaves the rest as it was read so far. -/
theorem push_eq (r : Reading) (argument : Text) :
    r.push argument =
      { level := (namedLevel? argument).or r.level
        filter := (Text.dropHead? filterHead argument).or r.filter
        file := (Text.dropHead? fileHead argument).getD r.file
        format := (Text.dropHead? formatHead argument).elim r.format fun name =>
          if Text.equalsIgnoringCase name (utf8 "json") then .json else .text
        verbosity := max r.verbosity (Options.verbosity argument) } := by
  -- No two heads begin the same argument, and none of them begins one of the other options.
  unfold push
  split
  · next name h =>
    obtain rfl := Text.eq_append_of_dropHead? h
    have hquiet : isQuiet (levelHead ++ name) = false := rfl
    have hfilter : Text.dropHead? filterHead (levelHead ++ name) = none := rfl
    have hfile : Text.dropHead? fileHead (levelHead ++ name) = none := rfl
    have hformat : Text.dropHead? formatHead (levelHead ++ name) = none := rfl
    have hverbosity : Options.verbosity (levelHead ++ name) = 0 := rfl
    simp [namedLevel?, h, hquiet, hfilter, hfile, hformat, hverbosity]
  · next hlevel =>
    split
    · next spec h =>
      obtain rfl := Text.eq_append_of_dropHead? h
      have hquiet : isQuiet (filterHead ++ spec) = false := rfl
      have hfile : Text.dropHead? fileHead (filterHead ++ spec) = none := rfl
      have hformat : Text.dropHead? formatHead (filterHead ++ spec) = none := rfl
      have hverbosity : Options.verbosity (filterHead ++ spec) = 0 := rfl
      simp [namedLevel?, h, hlevel, hquiet, hfile, hformat, hverbosity]
    · next hfilter =>
      split
      · next path h =>
        obtain rfl := Text.eq_append_of_dropHead? h
        have hquiet : isQuiet (fileHead ++ path) = false := rfl
        have hformat : Text.dropHead? formatHead (fileHead ++ path) = none := rfl
        have hverbosity : Options.verbosity (fileHead ++ path) = 0 := rfl
        simp [namedLevel?, h, hlevel, hfilter, hquiet, hformat, hverbosity]
      · next hfile =>
        split
        · next name h =>
          obtain rfl := Text.eq_append_of_dropHead? h
          have hquiet : isQuiet (formatHead ++ name) = false := rfl
          have hverbosity : Options.verbosity (formatHead ++ name) = 0 := rfl
          simp [namedLevel?, h, hlevel, hfilter, hfile, hquiet, hverbosity]
        · next hformat =>
          cases hquiet : isQuiet argument with
          | true =>
            have hverbosity : Options.verbosity argument = 0 := by
              simp only [isQuiet, Bool.or_eq_true, beq_iff_eq] at hquiet
              obtain rfl | rfl := hquiet <;> decide
            simp [namedLevel?, hquiet, hfilter, hfile, hformat, hverbosity]
          | false => simp [namedLevel?, hlevel, hquiet, hfilter, hfile, hformat]

/-- An argument that is no option leaves everything as it was read so far. -/
theorem push_of_not_isOption (r : Reading) {argument : Text} (h : isOption argument = false) :
    r.push argument = r := by
  simp only [isOption, List.any_cons, List.any_nil, Bool.or_false, Bool.or_eq_false_iff,
    Text.isPrefixOf_eq, Option.isSome_eq_false_iff, Option.isNone_iff_eq_none,
    decide_eq_false_iff_not, Nat.not_lt, Nat.le_zero] at h
  obtain ⟨⟨⟨hlevel, hfilter, hfile, hformat⟩, hquiet⟩, hverbosity⟩ := h
  simp [push_eq, namedLevel?, hlevel, hfilter, hfile, hformat, hquiet, hverbosity]

theorem foldl_push_filter (arguments : List Text) (r : Reading) :
    (arguments.filter isOption).foldl push r = arguments.foldl push r := by
  induction arguments generalizing r with
  | nil => rfl
  | cons argument arguments ih =>
    cases h : isOption argument with
    | false => simp [h, ih, r.push_of_not_isOption h]
    | true => simp [h, ih]

/-- What has been read of some options: each setting by the last option that gives it. -/
structure Holds (options : List Text) (r : Reading) : Prop where
  level : r.level = (options.filterMap namedLevel?).getLast?
  filter : r.filter = Text.lastBehind? filterHead options
  file : r.file = (Text.lastBehind? fileHead options).getD []
  format : r.format = .json ↔ ∃ name ∈ Text.lastBehind? formatHead options,
    Text.equalsIgnoringCase name (utf8 "json") = true
  verbosity : r.verbosity = (options.map Options.verbosity).foldl max 0

theorem Holds.push {options : List Text} {r : Reading} (h : r.Holds options) (argument : Text) :
    (r.push argument).Holds (options ++ [argument]) where
  level := by
    rw [push_eq, h.level, List.filterMap_append]
    cases hlevel : namedLevel? argument <;> simp [hlevel]
  filter := by rw [push_eq, h.filter, Text.lastBehind?_concat]
  file := by
    rw [push_eq, h.file, Text.lastBehind?_concat]
    cases Text.dropHead? fileHead argument <;> rfl
  format := by
    have hbefore := h.format
    rw [push_eq, Text.lastBehind?_concat]
    cases Text.dropHead? formatHead argument with
    | none => simpa using hbefore
    | some name => simp
  verbosity := by
    rw [push_eq, h.verbosity, List.map_append, List.foldl_append]
    rfl

theorem holds_foldl_push (options : List Text) : (options.foldl push {}).Holds options := by
  induction options using List.reverseRecOn with
  | nil => exact ⟨rfl, rfl, rfl, by simp, rfl⟩
  | append_singleton options argument ih =>
    rw [List.foldl_append]
    exact ih.push argument

/-- What the file and the format are does not depend on where the level comes from. -/
theorem config_fixed (r : Reading) (setting : Option Text) :
    (r.config setting).file = r.file ∧ (r.config setting).format = r.format ∧
      (r.config setting).console = true := by
  unfold config
  dsimp only
  repeat' split
  all_goals exact ⟨rfl, rfl, rfl⟩

end Reading

/-- Only the options among the arguments are read. -/
theorem parse_filter (arguments : List Text) (setting : Option Text) :
    parse (arguments.filter isOption) setting = parse arguments setting := by
  rw [parse, Reading.foldl_push_filter, parse]

/-- What the logger is set up with: a level that the options ask for, then a filter among them, and
the variable alone if they give neither of the two. -/
structure Configures (options : List Text) (setting : Option Text) (c : Config) : Prop where
  file : c.file = (Text.lastBehind? fileHead options).getD []
  format : c.format = .json ↔ ∃ name ∈ Text.lastBehind? formatHead options,
    Text.equalsIgnoringCase name (utf8 "json") = true
  console : c.console = true
  level : ∀ level ∈ askedLevel? options,
    c.level = level ∧ c.filter = (Text.lastBehind? filterHead options).getD []
  filter : askedLevel? options = none → ∀ spec ∈ Text.lastBehind? filterHead options,
    c.level = .warn ∧ c.filter = spec
  neither : askedLevel? options = none → Text.lastBehind? filterHead options = none →
    c.level = (parse [] setting).level ∧ c.filter = (parse [] setting).filter

/-- Each option sets what it gives, unless a later one gives it again. -/
theorem configures_parse (options : List Text) (setting : Option Text) :
    Configures options setting (parse options setting) := by
  have h := Reading.holds_foldl_push options
  unfold parse
  generalize options.foldl Reading.push {} = r at h ⊢
  obtain ⟨hfile, hformat, hconsole⟩ := r.config_fixed setting
  have hasked : r.level.or (levelOfVerbosity r.verbosity) = askedLevel? options := by
    rw [h.level, h.verbosity, askedLevel?]
  refine ⟨hfile.trans h.file, hformat ▸ h.format, hconsole, ?_, ?_, ?_⟩
  · intro level hlevel
    rw [← h.filter]
    unfold Reading.config
    rw [hasked, Option.mem_def.mp hlevel]
    exact ⟨rfl, rfl⟩
  · intro hnone spec hspec
    unfold Reading.config
    rw [hasked, hnone, h.filter, Option.mem_def.mp hspec]
    exact ⟨rfl, rfl⟩
  · intro hnone hunfiltered
    unfold Reading.config
    rw [hasked, hnone, h.filter, hunfiltered]
    obtain _ | _ | ⟨b, v⟩ := setting
    · exact ⟨rfl, rfl⟩
    · exact ⟨rfl, rfl⟩
    · simp only [parse, Reading.config, List.foldl_nil, levelOfVerbosity, Option.none_or]
      cases (b :: v).any fun b => b == byte '=' || b == byte ',' <;> exact ⟨rfl, rfl⟩

end Log.Options

end NativeBuild
