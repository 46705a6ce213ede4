import NativeBuild.Proofs.Manifest.Acceptance

/-!
# Where the settings of a text are found

The headers of a text divide its settings into blocks. Each block becomes a section, also where two
headers have one name, and looking a table up gives the section of the first block of the name.
-/
namespace NativeBuild.Manifest

/-- A header, and the settings up to the next one. -/
structure Block where
  name : Text
  isEntry : Bool
  settings : List (Text × Value)

/-- The settings up to the next header. -/
def settingsAhead : List Statement → List (Text × Value)
  | .setting key v :: more => (key, v) :: settingsAhead more
  | _ => []

def blocks : List Statement → List Block
  | [] => []
  | .header title isEntry :: more => ⟨title, isEntry, settingsAhead more⟩ :: blocks more
  | .setting _ _ :: more => blocks more

namespace Block

/-- The header is the one of a table. -/
def isTable (name : Text) (b : Block) : Bool := !b.isEntry && b.name == name

/-- The header is the one of an array entry. -/
def isElement (name : Text) (b : Block) : Bool := b.isEntry && b.name == name

/-- The section that keeps the last setting of each key. -/
def toSection (b : Block) : Section :=
  { name := b.name, isEntry := b.isEntry, values := Dictionary.ofList b.settings }

end Block

variable {t : Text} {d : Document} {statements : List Statement}

theorem build_eq_blocks (done : List Section) (current : Section) (statements : List Statement) :
    build done current statements =
      ⟨done.reverse ++ { current with
        values := (settingsAhead statements).foldl (fun d e => Dictionary.insert e.1 e.2 d)
          current.values } :: (blocks statements).map Block.toSection⟩ := by
  induction statements generalizing done current with
  | nil => simp [build, settingsAhead, blocks]
  | cons s statements ih =>
    rw [build, ih]
    cases s with
    | header title isEntry =>
      simp [Statement.apply, settingsAhead, blocks, Block.toSection, Dictionary.ofList]
    | setting key v => rfl

/-- The settings in front of the first header, and the blocks. -/
def sectionsOf (statements : List Statement) : List Section :=
  { values := Dictionary.ofList (settingsAhead statements) } ::
    (blocks statements).map Block.toSection

/-- The sections of a text are its blocks. -/
theorem sections_of_written (h : Written t statements) : parse t = .ok ⟨sectionsOf statements⟩ := by
  rw [parse_written h, build_eq_blocks]
  rfl

/-- A table is found exactly if there is a block of its name, and then in the first one. -/
theorem table?_of_written (h : Written t statements) (hd : parse t = .ok d) {name : Text}
    (hname : name ≠ []) :
    d.table? name = ((blocks statements).find? (Block.isTable name)).map Block.toSection := by
  rw [sections_of_written h] at hd
  obtain rfl := Except.ok.inj hd
  have hfirst : ¬([] = name) := fun heq => hname heq.symm
  rw [Document.table?, sectionsOf, List.find?_cons, List.find?_map]
  simp only [Bool.not_false, Bool.true_and, beq_eq_false_iff_ne.mpr hfirst]
  rfl

/-- The accepted texts are the written ones. Whatever the lines of such a text are, the settings
under the first header of a table are found in the table, the last one of each key; without such a
header there is no table. -/
theorem first_block_found (hd : parse t = .ok d) :
    (∃ statements, Written t statements) ∧
      ∀ statements, Written t statements → ∀ name ≠ [],
        (∀ b ∈ (blocks statements).find? (Block.isTable name),
          ∃ s, d.table? name = some s ∧ s.values.Keeps b.settings) ∧
        ((blocks statements).find? (Block.isTable name) = none → d.table? name = none) := by
  obtain ⟨statements, written, -⟩ := parse_eq_ok_iff_written.mp hd
  refine ⟨⟨statements, written⟩, fun statements written name hname => ?_⟩
  rw [table?_of_written written hd hname]
  refine ⟨fun b hb => ⟨b.toSection, ?_, Dictionary.keeps_ofList b.settings⟩, fun hnone => ?_⟩
  · rw [Option.mem_def.mp hb]
    rfl
  · rw [hnone]
    rfl

section Deleting

/-- The lines of a text with a block in the middle. -/
def around (outer : List Statement) (b : Block) (rest : List Statement) : List Statement :=
  outer ++ .header b.name b.isEntry :: (settingsOf b.settings ++ rest)

variable {outer rest : List Statement}

theorem settingsAhead_settingsOf (settings : List (Text × Value)) (h : settingsAhead rest = []) :
    settingsAhead (settingsOf settings ++ rest) = settings := by
  induction settings with
  | nil => exact h
  | cons e settings ih => exact congrArg (e :: ·) ih

theorem blocks_settingsOf (settings : List (Text × Value)) (rest : List Statement) :
    blocks (settingsOf settings ++ rest) = blocks rest := by
  induction settings with
  | nil => rfl
  | cons e settings ih => exact ih

theorem settingsAhead_append (h : settingsAhead rest = []) (outer : List Statement) :
    settingsAhead (outer ++ rest) = settingsAhead outer := by
  induction outer with
  | nil => exact h
  | cons s outer ih =>
    cases s with
    | header => rfl
    | setting key v => exact congrArg ((key, v) :: ·) ih

theorem blocks_append (h : settingsAhead rest = []) (outer : List Statement) :
    blocks (outer ++ rest) = blocks outer ++ blocks rest := by
  induction outer with
  | nil => rfl
  | cons s outer ih =>
    cases s with
    | header => rw [List.cons_append, blocks, blocks, ih, settingsAhead_append h, List.cons_append]
    | setting => exact ih

theorem blocks_around (hrest : settingsAhead rest = []) (outer : List Statement) (b : Block) :
    blocks (around outer b rest) = blocks outer ++ b :: blocks rest := by
  rw [around, blocks_append rfl, blocks, settingsAhead_settingsOf _ hrest, blocks_settingsOf]

theorem sectionsOf_around (hrest : settingsAhead rest = []) (outer : List Statement) (b : Block) :
    sectionsOf (around outer b rest) =
      sectionsOf outer ++ b.toSection :: (blocks rest).map Block.toSection := by
  rw [sectionsOf, blocks_around hrest, around, settingsAhead_append rfl, List.map_append]
  rfl

theorem header_mem_iff {name : Text} {isEntry : Bool} :
    .header name isEntry ∈ statements ↔
      ∃ b ∈ blocks statements, b.name = name ∧ b.isEntry = isEntry := by
  induction statements with
  | nil => simp [blocks]
  | cons s statements ih =>
    cases s with
    | header title isEntry' => simp [blocks, ih, eq_comm]
    | setting => simp [blocks, ih]

/-- A section has no say in what is found under another header. -/
theorem table?_of_other {s : Section} {name : Text} (h : s.isEntry = true ∨ s.name ≠ name)
    (before after : List Section) :
    Document.table? ⟨before ++ s :: after⟩ name = Document.table? ⟨before ++ after⟩ name := by
  have hs : (!s.isEntry && s.name == name) = false := by
    obtain h | h := h <;> simp [h]
  simp only [Document.table?, List.find?_append, List.find?_cons, hs]

theorem array_of_other {s : Section} {name : Text} (h : s.isEntry = false ∨ s.name ≠ name)
    (before after : List Section) :
    Document.array ⟨before ++ s :: after⟩ name = Document.array ⟨before ++ after⟩ name := by
  have hs : ¬(s.isEntry && s.name == name) = true := by
    obtain h | h := h <;> simp [h]
  simp only [Document.array, List.filter_append, List.filter_cons, if_neg hs]

/-- Behind the first header of its name a table is not looked for. -/
theorem table?_of_header {name : Text} (h : .header name false ∈ outer) (more : List Section) :
    Document.table? ⟨sectionsOf outer ++ more⟩ name = Document.table? ⟨sectionsOf outer⟩ name := by
  obtain ⟨b, hb, rfl, hisEntry⟩ := header_mem_iff.mp h
  have hfound : (Document.table? ⟨sectionsOf outer⟩ b.name).isSome = true := by
    rw [Document.table?, List.find?_isSome]
    exact ⟨b.toSection, List.mem_cons_of_mem _ (List.mem_map_of_mem hb), by
      simp [Block.toSection, hisEntry]⟩
  rw [Document.table?, List.find?_append]
  exact Option.or_of_isSome hfound

theorem table?_of_no_header {s : Section} (h : .header s.name false ∉ outer)
    (hs : s.isEntry = false) (hne : s.name ≠ []) (after : List Section) :
    Document.table? ⟨sectionsOf outer ++ s :: after⟩ s.name = some s := by
  have hnone : (sectionsOf outer).find? (fun x => !x.isEntry && x.name == s.name) = none := by
    rw [List.find?_eq_none]
    intro x hx htable
    have ⟨hisEntry, hname⟩ : x.isEntry = false ∧ x.name = s.name := by simpa using htable
    obtain rfl | hx := List.mem_cons.mp hx
    · exact hne hname.symm
    · obtain ⟨b, hb, rfl⟩ := List.mem_map.mp hx
      exact h (header_mem_iff.mpr ⟨b, hb, hname, hisEntry⟩)
  rw [Document.table?, List.find?_append, hnone, List.find?_cons_of_pos (by simp [hs])]
  rfl

theorem array_of_entry {s : Section} (hs : s.isEntry = true) (before after : List Section) :
    Document.array ⟨before ++ s :: after⟩ s.name =
      Document.array ⟨before⟩ s.name ++ s :: Document.array ⟨after⟩ s.name := by
  rw [Document.array, List.filter_append, List.filter_cons_of_pos (by simp [hs])]
  rfl

theorem length_array (name : Text) (statements : List Statement) :
    (Document.array ⟨sectionsOf statements⟩ name).length =
      (blocks statements).countP (Block.isElement name) := by
  rw [Document.array, sectionsOf, List.filter_cons_of_neg (by simp), ← List.countP_eq_length_filter,
    List.countP_map]
  rfl

/-- Without the text of one of its statements a text has the other statements. -/
theorem Written.delete {s : Statement} {before after : List Statement}
    (h : Written t (before ++ s :: after)) :
    ∃ left text right, t = left ++ (text ++ right) ∧ States text s ∧
      Written (left ++ right) (before ++ after) ∧ (LineOver t → LineOver (left ++ right)) := by
  have hover {gap text : Text} {s : Statement} (states : States text s) {more : Text}
      (h : LineOver (gap ++ (text ++ more))) (u : Text) : LineOver (gap ++ u) := by
    obtain ⟨b, tail, rfl, hb, -⟩ := states.head
    exact h.of_word hb u
  induction before generalizing t with
  | nil =>
    obtain _ | _ | @⟨gap, text, more, _, _, isFiller, states, lineOver, others⟩ := h
    exact ⟨gap, text, more, rfl, states, others.of_gap isFiller, fun h => hover states h more⟩
  | cons first before ih =>
    obtain _ | _ | @⟨gap, text, more, _, _, isFiller, states, lineOver, others⟩ := h
    obtain ⟨left, text', right, rfl, hs, written, hends⟩ := ih others
    refine ⟨gap ++ (text ++ left), text', right, by simp, hs, ?_, fun h => ?_⟩
    · simpa using Written.cons isFiller states (hends lineOver) written
    · simpa using hover states h (text ++ (left ++ right))

end Deleting

/-- Two headers with one name. -/
def repeatedTableText : Text := utf8 "[build]\nlevel=1\nlevel=2\n[build]\nlevel=3\n"

def repeatedTable : List Statement :=
  [.header (utf8 "build") false, .setting (utf8 "level") (.integer 1),
    .setting (utf8 "level") (.integer 2), .header (utf8 "build") false,
    .setting (utf8 "level") (.integer 3)]

theorem repeatedTable_written : Written repeatedTableText repeatedTable := by
  have hbuild : States (utf8 "[build]") (.header (utf8 "build") false) :=
    @States.header (utf8 "build") [] [] false (by decide +kernel) .nil .nil
  have hlevel {digit : Text} (i : ℤ) (denotes : Denotes digit (.integer i)) :
      States (utf8 "level=" ++ digit) (.setting (utf8 "level") (.integer i)) :=
    @States.setting (utf8 "level") [] [] digit _ (by decide +kernel) .nil .nil denotes
  have hlines : Filler [0x0A] := .blank (by decide) .nil
  have hover {more : Text} : LineOver (0x0A :: more) := fun b hb => .inl (Option.some.inj hb).symm
  have hone : Denotes (utf8 "1") (.integer 1) :=
    .natural (by decide) (by decide +kernel) (by decide)
  have htwo : Denotes (utf8 "2") (.integer 2) :=
    .natural (by decide) (by decide +kernel) (by decide)
  have hthree : Denotes (utf8 "3") (.integer 3) :=
    .natural (by decide) (by decide +kernel) (by decide)
  have hlast := Written.cons hlines (hlevel 3 hthree) hover (.filler hlines)
  have hsecond := Written.cons hlines hbuild hover hlast
  have hmore := Written.cons hlines (hlevel 2 htwo) hover hsecond
  exact .cons .nil hbuild hover (.cons hlines (hlevel 1 hone) hover hmore)

theorem first_block_found_of_repeatedTable :
    ∃ d s, parse repeatedTableText = .ok d ∧ d.table? (utf8 "build") = some s ∧
      s.integer? (utf8 "level") = some 2 := by
  obtain ⟨d, hd⟩ : ∃ d, parse repeatedTableText = .ok d :=
    ⟨_, sections_of_written repeatedTable_written⟩
  obtain ⟨-, hfound⟩ := first_block_found hd
  obtain ⟨hfirst, -⟩ := hfound repeatedTable repeatedTable_written (utf8 "build") (by decide)
  obtain ⟨s, hs, hkeeps⟩ := hfirst
    ⟨utf8 "build", false, [(utf8 "level", .integer 1), (utf8 "level", .integer 2)]⟩ rfl
  refine ⟨d, s, hd, hs, ?_⟩
  rw [Section.integer?, hkeeps.last]
  rfl

/-- What stands under a later header of the name is not found in the table. -/
theorem later_block_lost :
    ∃ d statements v, parse repeatedTableText = .ok d ∧ Written repeatedTableText statements ∧
      Dictionary.get? (utf8 "level")
        (((blocks statements).filter (Block.isTable (utf8 "build"))).flatMap
          Block.settings).reverse = some v ∧
      ¬∃ s, d.table? (utf8 "build") = some s ∧ s.values.get? (utf8 "level") = some v := by
  refine ⟨_, repeatedTable, .integer 3, sections_of_written repeatedTable_written,
    repeatedTable_written, by decide, ?_⟩
  rintro ⟨s, hs, hlevel⟩
  obtain rfl := Option.some.inj hs
  revert hlevel
  decide

end NativeBuild.Manifest
