import Mathlib.Data.List.Nodup
import Mathlib.Data.List.TakeWhile
import NativeBuild.Proofs.Merging
import NativeBuild.Proofs.Shell.CommandLine

/-!
# Command lines made of options

An option is a name without a meaning for the shell and perhaps a value between quotes. A command
line of options is split into the executable and one field for each option, which is its name with
the value behind it. Options with different names are different arguments, so nothing is lost when
options are merged into a list that has none of their names.
-/
namespace NativeBuild

namespace Shell

/-- An option as it is put together. -/
structure Item where
  name : Text
  value : Option Text := none
  deriving DecidableEq

namespace Item

/-- The option as it stands on a command line. -/
def written (i : Item) : Text := i.name ++ (i.value.map Quoting.quote).getD []

/-- The text that the option is for. -/
def meant (i : Item) : Text := i.name ++ i.value.getD []

/-- The name means nothing to the shell, and the value has no zero byte. -/
structure IsLiteral (i : Item) : Prop where
  ne_nil : i.name ≠ []
  inert : ∀ b ∈ i.name, isInert b = true
  nonzero : ∀ v ∈ i.value, 0 ∉ v

/-- The argument of a command line that an option is. -/
def argument (i : Item) (h : i.IsLiteral) : Argument := ⟨i.name, i.value, h.inert, h.nonzero⟩

theorem exists_arguments {items : List Item} (h : ∀ i ∈ items, i.IsLiteral) :
    ∃ arguments : List Argument, arguments.map (·.written) = items.map written ∧
      arguments.map (·.meant) = items.map meant ∧ ∀ a ∈ arguments, a.written ≠ [] := by
  induction items with
  | nil => exact ⟨[], rfl, rfl, by simp⟩
  | cons i items ih =>
    obtain ⟨hi, hrest⟩ := List.forall_mem_cons.mp h
    obtain ⟨arguments, hwritten, hmeant, hne⟩ := ih hrest
    refine ⟨i.argument hi :: arguments, ?_, ?_, ?_⟩
    · rw [List.map_cons, List.map_cons, hwritten]
      rfl
    · rw [List.map_cons, List.map_cons, hmeant]
      rfl
    · intro a ha
      obtain rfl | ha := List.mem_cons.mp ha
      · exact List.append_ne_nil_of_left_ne_nil hi.ne_nil _
      · exact hne a ha

/-- The name of an option can be read off it: it ends where the quotes open. -/
theorem takeWhile_written {i : Item} (h : i.IsLiteral) :
    i.written.takeWhile (· != byte '"') = i.name := by
  have hname : ∀ b ∈ i.name, (b != byte '"') = true := by
    intro b hb
    exact bne_iff_ne.mpr (ne_of_isInert (h.inert b hb) (by decide))
  rw [written, List.takeWhile_append_of_pos hname]
  cases i.value with
  | none => simp
  | some v => simp [Quoting.quote]

theorem name_eq_of_written_eq {i j : Item} (hi : i.IsLiteral) (hj : j.IsLiteral)
    (h : i.written = j.written) : i.name = j.name := by
  rw [← takeWhile_written hi, ← takeWhile_written hj, h]

/-- An option without a value, if it is switched on. -/
def switch (on : Bool) (name : String) : List Item := if on then [{ name := utf8 name }] else []

def valued (name : String) (value : Text) : Item := { name := utf8 name, value := some value }

/-- The options have names from a list, and no value has a zero byte. -/
def Within (names : List Text) (items : List Item) : Prop :=
  ∀ i ∈ items, i.name ∈ names ∧ ∀ v ∈ i.value, 0 ∉ v

section Within

variable {names names' : List Text} {items more : List Item}

@[simp] theorem within_nil (names : List Text) : Within names [] := by simp [Within]

theorem Within.append (h : Within names items) (h' : Within names more) :
    Within names (items ++ more) := List.forall_mem_append.mpr ⟨h, h'⟩

/-- Options with names from two lists. -/
theorem Within.concat (h : Within names items) (h' : Within names' more) :
    Within (names ++ names') (items ++ more) := by
  intro i hi
  obtain hi | hi := List.mem_append.mp hi
  · exact ⟨List.mem_append_left _ (h i hi).1, (h i hi).2⟩
  · exact ⟨List.mem_append_right _ (h' i hi).1, (h' i hi).2⟩

theorem within_switch {on : Bool} {name : String} (h : utf8 name ∈ names) :
    Within names (switch on name) := by
  intro i hi
  cases on with
  | false => simp [switch] at hi
  | true =>
    obtain rfl : i = { name := utf8 name } := by simpa [switch] using hi
    exact ⟨h, by simp⟩

theorem within_valued {name : String} {value : Text} (h : utf8 name ∈ names) (hvalue : 0 ∉ value) :
    Within names [valued name value] := by
  intro i hi
  obtain rfl := List.mem_singleton.mp hi
  exact ⟨h, by simpa [valued] using hvalue⟩

/-- Options whose names mean nothing to the shell are literal. -/
theorem Within.isLiteral (h : Within names items)
    (hnames : names.all (fun name => !name.isEmpty && name.all isInert) = true) :
    ∀ i ∈ items, i.IsLiteral := by
  intro i hi
  obtain ⟨hname, hvalue⟩ := h i hi
  have hinert := List.all_eq_true.mp hnames i.name hname
  rw [Bool.and_eq_true, Bool.not_eq_true', List.isEmpty_eq_false_iff] at hinert
  exact ⟨hinert.1, List.all_eq_true.mp hinert.2, hvalue⟩

end Within

end Item

/-- A line is one simple command, which the shell splits into some fields. It reads the line to its
end, takes nothing in it for an operator, and asks nothing of the machine to expand its words. -/
structure SplitsInto (line : Text) (fields : List Text) : Prop where
  whole : line.takeWhile (· != 0) = line
  words : words? line = some fields
  command : ∃ parts,
    Reader.next? ⟨line, line⟩ = .ok (some (.sequence [.simple 1 [] parts []], ⟨line, []⟩)) ∧
      ∀ fuel, line.length < fuel → expandAll fuel parts = pure fields

/-- A quoted executable and arguments that are not empty. -/
theorem splitsInto_line {executable : Path} (hexecutable : 0 ∉ executable)
    {arguments : List Argument} (h : ∀ a ∈ arguments, a.written ≠ []) :
    SplitsInto (Quoting.quote executable ++ Argument.behind arguments)
      (executable :: arguments.map (·.meant)) := by
  let first := Argument.ofExecutable executable hexecutable
  have hstands : Quoting.quote executable = first.written := rfl
  have hquoted : first.written = byte '"' :: (Quoting.escape executable ++ [byte '"']) := rfl
  have hfirst : first.written ≠ [] := List.append_ne_nil_of_right_ne_nil _ (List.cons_ne_nil _ _)
  have hall : ∀ a ∈ first :: arguments, a.written ≠ [] := List.forall_mem_cons.mpr ⟨hfirst, h⟩
  rw [hstands]
  constructor
  · rw [List.takeWhile_eq_self_iff]
    intro b hb
    rw [bne_iff_ne]
    rintro rfl
    obtain hb | hb := List.mem_append.mp hb
    · exact first.zero_not_mem_written hb
    · obtain ⟨a, -, hb⟩ := List.mem_flatMap.mp hb
      obtain hb | hb := List.mem_cons.mp hb
      · exact absurd hb (by decide)
      · exact a.zero_not_mem_written hb
  · exact words?_line hfirst h
  · refine ⟨first.word :: arguments.map (·.word), Reader.next?_line hquoted h, ?_⟩
    intro fuel hfuel
    have hlength := Argument.length_le_behind arguments
    rw [List.length_append] at hfuel
    apply expandAll_word hall
    intro a ha
    rw [List.length_cons]
    obtain rfl | ha := List.mem_cons.mp ha
    · have hle := first.length_word_le
      omega
    · have hle := Argument.length_word_le_behind ha
      omega

end Shell

open Shell

/-- The command line of a process whose arguments are options. -/
theorem ProcessSpec.splitsInto_commandLine (s : ProcessSpec) {items : List Item}
    (hexecutable : 0 ∉ s.executable) (harguments : s.arguments = items.map Item.written)
    (hitems : ∀ i ∈ items, i.IsLiteral) :
    SplitsInto s.commandLine (s.executable :: items.map Item.meant) := by
  obtain ⟨arguments, hwritten, hmeant, hne⟩ := Item.exists_arguments hitems
  have hkept : arguments.filter (·.written ≠ []) = arguments := by
    rw [List.filter_eq_self]
    intro a ha
    simpa using hne a ha
  rw [s.commandLine_eq (harguments.trans hwritten.symm), hkept, ← hmeant]
  exact splitsInto_line hexecutable hne

/-- Options whose names are new and different are merged in as they stand. -/
theorem Shell.Item.Within.appendUnique {names names' : List Text} {items more : List Item}
    (hitems : Within names items) (hmore : Within names' more)
    (hnames : (names ++ names').all (fun name => !name.isEmpty && name.all isInert) = true)
    (hnodup : (more.map Item.name).Nodup) (hnew : ∀ name ∈ names', name ∉ names) :
    appendUnique (items.map Item.written) (more.map Item.written) =
      (items ++ more).map Item.written := by
  have hliteral := (hitems.concat hmore).isLiteral hnames
  obtain ⟨hliterals, hliterals'⟩ := List.forall_mem_append.mp hliteral
  rw [List.map_append]
  apply appendUnique_eq_append
  · apply List.Nodup.of_map (List.takeWhile (· != byte '"'))
    have hread : (more.map Item.written).map (List.takeWhile (· != byte '"')) =
        more.map Item.name := by
      rw [List.map_map]
      exact List.map_congr_left fun i hi => Item.takeWhile_written (hliterals' i hi)
    rwa [hread]
  · intro x hx hmem
    obtain ⟨i, hi, rfl⟩ := List.mem_map.mp hx
    obtain ⟨j, hj, hwritten⟩ := List.mem_map.mp hmem
    have hname := Item.name_eq_of_written_eq (hliterals j hj) (hliterals' i hi) hwritten
    exact hnew i.name (hmore i hi).1 (hname ▸ (hitems j hj).1)

end NativeBuild
