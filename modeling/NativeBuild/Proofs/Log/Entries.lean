import Mathlib.Data.List.Induction
import Mathlib.Data.List.TakeDrop
import Mathlib.Data.List.TakeWhile
import NativeBuild.Log.Filter
import NativeBuild.Proofs.Dictionary
import NativeBuild.Proofs.Splitting

/-!
# The thresholds that a specification sets

A specification is a row of entries between commas. Each has a name and a level, and of several
entries with one name the last one counts. A module has the level of its own entry, or else the
level that is given for `*`, or else the default from before. A star alone is the name of a module
like any other, so it gives no level to the modules without an entry.
-/
namespace NativeBuild.Log.Filter

/-- The name that stands for all modules without an entry. -/
def star : Text := utf8 "*"

/-- An entry is bare if it is nothing but a name. -/
structure Entry where
  name : Text
  level : Level
  bare : Bool
  deriving DecidableEq, Repr

namespace Entry

/-- The name is what stands before the first equals sign and the level what stands behind it, both
without the blanks around them. Without a sign all records pass. -/
def ofText (t : Text) : Entry :=
  if byte '=' ∈ t then
    { name := Text.trim (t.takeWhile (· != byte '='))
      level := Level.ofName (Text.trim ((t.dropWhile (· != byte '=')).drop 1))
      bare := false }
  else { name := t, level := .trace, bare := true }

/-- The entry gives the default. -/
def isDefault (e : Entry) : Bool := e.name = star && !e.bare

end Entry

/-- The entries of a specification. Between two commas there is none if all is blank there. -/
def entries (specification : Text) : List Entry :=
  (((Text.pieces (· == byte ',') specification).map Text.trim).filter (· ≠ [])).map Entry.ofText

/-- The level of the last entry with a name. -/
def lastLevel? (name : Text) (entries : List Entry) : Option Level :=
  (entries.reverse.find? (·.name = name)).map (·.level)

@[simp] theorem lastLevel?_concat (name : Text) (entries : List Entry) (e : Entry) :
    lastLevel? name (entries ++ [e]) =
      if e.name = name then some e.level else lastLevel? name entries := by
  simp only [lastLevel?, List.reverse_append, List.reverse_singleton, List.singleton_append,
    List.find?_cons]
  by_cases h : e.name = name <;> simp [h]

theorem cutAt?_eq (b : UInt8) (t : Text) :
    Text.cutAt? b t =
      if b ∈ t then some (t.takeWhile (· != b), (t.dropWhile (· != b)).drop 1) else none := by
  unfold Text.cutAt?
  rw [List.span_eq_takeWhile_dropWhile]
  cases h : t.dropWhile (· != b) with
  | nil =>
    have hnot : b ∉ t := by
      intro hb
      simpa using List.dropWhile_eq_nil_iff.mp h b hb
    simp [hnot]
  | cons c rest =>
    have hc : (c != b) = false := by
      have hhead := List.head?_dropWhile_not (· != b) t
      simpa [h] using hhead
    have hb : b ∈ t := by
      obtain rfl : c = b := by simpa using hc
      exact (List.dropWhile_suffix _).subset (h ▸ List.mem_cons_self)
    simp [hb]

/-- What one entry does to a filter. -/
def put (f : Filter) (e : Entry) : Filter :=
  if e.isDefault then { f with default := e.level }
  else { f with modules := f.modules.insert e.name e.level }

theorem addEntry_eq_put (f : Filter) {t : Text} (ht : t ≠ []) :
    f.addEntry t = f.put (Entry.ofText t) := by
  unfold addEntry
  rw [if_neg ht, cutAt?_eq]
  by_cases h : byte '=' ∈ t
  · simp [h, Entry.ofText, put, Entry.isDefault, star]
  · simp [h, Entry.ofText, put, Entry.isDefault]

theorem foldl_addEntry (f : Filter) (texts : List Text) :
    texts.foldl addEntry f = ((texts.filter (· ≠ [])).map Entry.ofText).foldl put f := by
  induction texts generalizing f with
  | nil => rfl
  | cons t texts ih =>
    by_cases ht : t = []
    · simp [ht, ih, addEntry]
    · simp [ht, ih, addEntry_eq_put f ht]

theorem read_eq (f : Filter) (specification : Text) :
    f.read specification = (entries specification).foldl put { f with modules := [] } := by
  have hcomma : (utf8 ",").contains = (· == byte ',') := by
    funext b
    rw [show utf8 "," = [byte ','] by decide, List.contains_cons, List.contains_nil, Bool.or_false]
  -- A piece with nothing in it has nothing left without its blanks either.
  have hpieces (pieces : List Text) :
      ((pieces.filter (· ≠ [])).map Text.trim).filter (· ≠ []) =
        (pieces.map Text.trim).filter (· ≠ []) := by
    rw [List.filter_map, List.filter_map, List.filter_filter]
    congr 1
    apply List.filter_congr
    intro piece _
    cases piece <;> simp [Text.trim, Text.dropBlanks]
  rw [read, foldl_addEntry, Text.splitAny_eq_words, Text.words, hcomma, hpieces]
  rfl

section Run

variable (f : Filter) (entries : List Entry)

/-- The default is what the last entry that gives one says. -/
theorem default_foldl_put :
    (entries.foldl put f).default =
      (lastLevel? star (entries.filter (!·.bare))).getD f.default := by
  induction entries using List.reverseRecOn with
  | nil => rfl
  | append_singleton entries e ih =>
    rw [List.foldl_append, List.foldl_cons, List.foldl_nil, List.filter_append]
    by_cases hbare : e.bare = true
    · simp [put, Entry.isDefault, hbare, ih]
    · by_cases hname : e.name = star
      · simp [put, Entry.isDefault, hbare, hname]
      · simp [put, Entry.isDefault, hbare, hname, ih]

/-- A module has the threshold of its last entry. -/
theorem get?_foldl_put {module : Text} (hmodule : module ≠ star) :
    (entries.foldl put f).modules.get? module =
      (lastLevel? module entries).or (f.modules.get? module) := by
  induction entries using List.reverseRecOn with
  | nil => rfl
  | append_singleton entries e ih =>
    rw [List.foldl_append, List.foldl_cons, List.foldl_nil, lastLevel?_concat]
    by_cases hname : e.name = module
    · have hdefault : e.isDefault = false := by simp [Entry.isDefault, hname, hmodule]
      simp [put, hdefault, hname]
    · by_cases hdefault : e.isDefault = true
      · simp [put, hdefault, hname, ih]
      · simp [put, hdefault, hname, ih, Dictionary.get?_insert_of_ne (Ne.symm hname)]

end Run

/-- Where no star is bare, every entry for `*` gives a level. -/
theorem lastLevel?_star_of_given {entries : List Entry}
    (h : ∀ e ∈ entries, e.name = star → e.bare = false) :
    lastLevel? star (entries.filter (!·.bare)) = lastLevel? star entries := by
  induction entries using List.reverseRecOn with
  | nil => rfl
  | append_singleton entries e ih =>
    have hrest := ih fun d hd => h d (List.mem_append_left _ hd)
    have he := h e (by simp)
    by_cases hname : e.name = star
    · simp [he hname, hname]
    · cases hbare : e.bare <;> simp [hbare, hname, hrest]

/-- A record is compared with the level of the last entry of its module, or else with the level that
the last entry for `*` gives, or else with the default from before. Only a bare star gives none. -/
theorem admits_read (f : Filter) (specification : Text) (level : Level) {module : Text}
    (hmodule : module ≠ star) :
    let entries := entries specification
    let given := entries.filter (!·.bare)
    ((f.read specification).admits level module = true ↔
        ((lastLevel? module entries).or (lastLevel? star given)).getD f.default ≤ level) ∧
      ((∀ e ∈ entries, e.name = star → e.bare = false) →
        lastLevel? star given = lastLevel? star entries) := by
  intro entries given
  have hthreshold : (f.read specification).threshold module =
      ((lastLevel? module entries).or (lastLevel? star given)).getD f.default := by
    rw [threshold, read_eq, get?_foldl_put _ _ hmodule, default_foldl_put]
    cases lastLevel? module entries <;> simp [Dictionary.get?, entries, given]
  constructor
  · rw [admits, hthreshold, decide_eq_true_eq]
  · exact lastLevel?_star_of_given

/-- Two entries for one module, two for the other modules, and blanks. -/
def crowdedSpecification : Text := utf8 " host = debug ,*=warn,, host=off, * = error,diag,*"

theorem admits_read_of_crowdedSpecification :
    utf8 "cli" ≠ star ∧
      ((({} : Filter).read crowdedSpecification).admits .warn (utf8 "cli") = true ↔
        Level.error ≤ Level.warn) := by
  have hmodule : utf8 "cli" ≠ star := by decide
  have hread := (admits_read {} crowdedSpecification .warn hmodule).1
  have hlevel : ((lastLevel? (utf8 "cli") (entries crowdedSpecification)).or
      (lastLevel? star ((entries crowdedSpecification).filter (!·.bare)))).getD .info = .error := by
    decide
  rw [hlevel] at hread
  exact ⟨hmodule, hread⟩

/-- A bare star leaves the default as it is. -/
example : (({} : Filter).read star).threshold (utf8 "cli") = .info := by decide +kernel

end NativeBuild.Log.Filter
