import NativeBuild.Launcher
import NativeBuild.Proofs.Shell.Expansion
import NativeBuild.Proofs.Shell.Reading

/-!
# Splitting command lines

The shell splits the command line of a process into the executable and the arguments that are not
empty, each with the text that was quoted in place of its quotes. The line is one simple command
without assignments and redirections, and expanding its words asks nothing of the machine.
-/
namespace NativeBuild.Shell

open Argument

/-- The argument for the executable, which always stands between quotes. -/
def Argument.ofExecutable (p : Path) (h : 0 ∉ p) : Argument where
  value := some p
  inert := by simp
  nonzero := by simpa using h

theorem Argument.length_word_le (a : Argument) : a.word.length ≤ a.written.length := by
  obtain ⟨head, value, inert, nonzero⟩ := a
  have hescape : ∀ v : Text, v.length ≤ (Quoting.escape v).length := by
    intro v
    induction v with
    | nil => simp
    | cons b v ih =>
      by_cases hb : Quoting.isSpecial b = true
      · rw [escape_cons_of_isSpecial v hb]
        simp only [List.length_cons]
        omega
      · rw [escape_cons_of_not_isSpecial v hb]
        simp only [List.length_cons]
        omega
  unfold word written
  cases value with
  | none => simp
  | some v =>
    have hle := hescape v
    simp only [Option.map_some, Option.getD_some, quotedWord, List.length_append, List.length_map]
    split
    · simp [Quoting.quote]
    · simp only [List.length_map, Quoting.quote, List.length_cons, List.length_append]
      omega

theorem Argument.length_word_le_behind {a : Argument} {as : List Argument} (h : a ∈ as) :
    as.length + a.word.length ≤ (behind as).length := by
  induction as with
  | nil => simp at h
  | cons c as ih =>
    have hlength := length_le_behind as
    simp only [behind_cons, List.length_cons, List.length_append]
    obtain rfl | h := List.mem_cons.mp h
    · have hle := a.length_word_le
      omega
    · have hle := ih h
      omega

end NativeBuild.Shell

namespace NativeBuild

open Shell Argument

/-- The quoted executable, and behind it each argument that is not empty with a space before it. -/
theorem ProcessSpec.commandLine_eq_flatMap (s : ProcessSpec) :
    s.commandLine = Quoting.quote s.executable ++
      (s.arguments.filter (· ≠ [])).flatMap (0x20 :: ·) := by
  have hjoin : ∀ (t : Text) (ts : List Text),
      Text.join (utf8 " ") (t :: ts) = t ++ ts.flatMap (0x20 :: ·) := by
    intro t ts
    induction ts generalizing t with
    | nil => simp [Text.join]
    | cons u ts ih =>
      have hstep : Text.join (utf8 " ") (t :: u :: ts) =
          t ++ 0x20 :: Text.join (utf8 " ") (u :: ts) := by
        simp [Text.join, List.intercalate, show utf8 " " = [0x20] by decide]
      rw [hstep, ih]
      simp
  rw [commandLine, hjoin]

theorem ProcessSpec.commandLine_eq (s : ProcessSpec) {arguments : List Argument}
    (h : s.arguments = arguments.map (·.written)) :
    s.commandLine =
      Quoting.quote s.executable ++ behind (arguments.filter (·.written ≠ [])) := by
  rw [commandLine_eq_flatMap, h, List.filter_map]
  simp [behind, List.flatMap_map, Function.comp_def]

/-- The shell splits a command line into the executable and the arguments that are not empty, with
the quoted texts as they were. It replaces nothing, takes nothing for an operator, and leaves
nothing of the line unread. -/
theorem ProcessSpec.commandLine_splits (s : ProcessSpec) (arguments : List Argument)
    (hexecutable : 0 ∉ s.executable) (harguments : s.arguments = arguments.map (·.written)) :
    let fields := s.executable :: (arguments.filter (·.written ≠ [])).map (·.meant)
    s.commandLine.takeWhile (· != 0) = s.commandLine ∧
      words? s.commandLine = some fields ∧
      ∃ words,
        Reader.next? ⟨s.commandLine, s.commandLine⟩ =
          .ok (some (.sequence [.simple 1 [] words []], ⟨s.commandLine, []⟩)) ∧
        ∀ fuel, s.commandLine.length < fuel → expandAll fuel words = pure fields := by
  intro fields
  let executable := Argument.ofExecutable s.executable hexecutable
  let others := arguments.filter (·.written ≠ [])
  have hline : s.commandLine = executable.written ++ behind others := s.commandLine_eq harguments
  have hquote : executable.written = byte '"' :: (Quoting.escape s.executable ++ [byte '"']) := rfl
  have hothers : ∀ a ∈ others, a.written ≠ [] := by
    intro a ha
    simpa using (List.mem_filter.mp ha).2
  have hall : ∀ a ∈ executable :: others, a.written ≠ [] := by
    intro a ha
    obtain rfl | ha := List.mem_cons.mp ha
    · simp [hquote]
    · exact hothers a ha
  refine ⟨?_, ?_, executable.word :: others.map (·.word), ?_, fun fuel hfuel => ?_⟩
  · have hzero : ∀ b ∈ s.commandLine, b ≠ 0 := by
      rintro b hb rfl
      rw [hline, List.mem_append] at hb
      obtain hb | hb := hb
      · exact executable.zero_not_mem_written hb
      · obtain ⟨a, -, hb⟩ := List.mem_flatMap.mp hb
        obtain hb | hb := List.mem_cons.mp hb
        · exact absurd hb (by decide)
        · exact a.zero_not_mem_written hb
    have hwhole : (s.commandLine ++ []).takeWhile (· != 0) =
        s.commandLine ++ [].takeWhile (· != 0) :=
      List.takeWhile_append_of_pos fun b hb => bne_iff_ne.mpr (hzero b hb)
    simpa using hwhole
  · rw [hline]
    exact words?_line (hall executable (by simp)) hothers
  · rw [hline]
    exact Reader.next?_line hquote hothers
  · rw [hline, List.length_append] at hfuel
    refine expandAll_word hall fun a ha => ?_
    have hlength := length_le_behind others
    rw [List.length_cons]
    obtain rfl | ha := List.mem_cons.mp ha
    · have hle := executable.length_word_le
      omega
    · have hle := length_word_le_behind ha
      omega

/-- A compiler whose path has a space, with an argument that the shell would act on. -/
def quotingArguments : List Argument :=
  [{ head := utf8 "--aot", inert := by decide +kernel, nonzero := by simp },
    { inert := by simp, nonzero := by simp },
    { head := utf8 "-o=", value := some (utf8 "$x\\\n`"), inert := by decide +kernel,
      nonzero := by decide }]

def quotingSpec : ProcessSpec :=
  { executable := utf8 "/a b", arguments := quotingArguments.map (·.written) }

theorem ProcessSpec.commandLine_splits_of_special_bytes :
    0 ∉ quotingSpec.executable ∧
      quotingSpec.arguments = quotingArguments.map (·.written) ∧
      words? quotingSpec.commandLine =
        some [utf8 "/a b", utf8 "--aot", utf8 "-o=$x\\\n`"] := by
  have hexecutable : 0 ∉ quotingSpec.executable := by decide
  have hsplits := quotingSpec.commandLine_splits quotingArguments hexecutable rfl
  exact ⟨hexecutable, rfl, hsplits.2.1.trans (by decide)⟩

end NativeBuild
