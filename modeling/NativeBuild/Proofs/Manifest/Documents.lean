import NativeBuild.Proofs.Decimal
import NativeBuild.Proofs.Manifest.Reading

/-!
# Documents are read from all their layouts

The lines of a text build a document step by step: a header opens a section, a setting goes into
the section that is open. Whatever the order of the settings was, the sections come out sorted, so
every layout of a document is read as that document.
-/
namespace NativeBuild.Manifest

/-- A statement with names and values as they should be. -/
def Statement.WellFormed : Statement → Prop
  | .header title _ => IsName title
  | .setting key v => IsName key ∧ v.InRange

section Layouts

theorem Spaces.filler {t : Text} (h : Spaces t) : Filler t := by
  induction t with
  | nil => exact .nil
  | cons b t ih =>
    refine .blank ?_ (ih fun a ha => h a (List.mem_cons_of_mem b ha))
    obtain rfl | rfl := h b List.mem_cons_self <;> decide

theorem LineEnd.filler {ending more : Text} (h : LineEnd ending) (hmore : Filler more) :
    Filler (ending ++ more) := by
  cases h with
  | lf => exact .blank (by decide) hmore
  | crlf => exact .blank (by decide) (.blank (by decide) hmore)

/-- A comment takes the carriage return at the end of its line. -/
theorem LineEnd.filler_of_comment {words ending more : Text} (h : LineEnd ending)
    (hwords : 0x0A ∉ words) (hmore : Filler more) :
    Filler (byte '#' :: (words ++ (ending ++ more))) := by
  cases h with
  | lf => exact .comment hwords hmore
  | crlf =>
    have hreturn : 0x0A ∉ words ++ [0x0D] := by simpa using hwords
    simpa using Filler.comment hreturn hmore

theorem Trailer.filler {trailer ending more : Text} (h : Trailer trailer) (hend : LineEnd ending)
    (hmore : Filler more) : Filler (trailer ++ (ending ++ more)) := by
  cases h with
  | spaces spaces => exact spaces.filler.append (hend.filler hmore)
  | comment spaces oneLine =>
    rw [List.append_assoc]
    exact spaces.filler.append (hend.filler_of_comment oneLine hmore)

theorem Gap.filler {gap : Text} (h : Gap gap) : Filler gap := by
  induction h with
  | spaces spaces => exact spaces.filler
  | line isTrailer isEnd _ ih =>
    rw [List.append_assoc]
    exact isTrailer.filler isEnd ih

theorem StringByte.character {written : Text} {b : UInt8} (h : StringByte written b) :
    Character written b := by
  cases h with
  | plain notQuote notEscape notEnd => exact .plain notQuote notEscape notEnd
  | quote => exact .escaped (byte '"')
  | backslash => exact .escaped (byte '\\')
  | lineFeed => exact .escaped (byte 'n')
  | carriageReturn => exact .escaped (byte 'r')
  | tab => exact .escaped (byte 't')

theorem StringBody.body {body meant : Text} (h : StringBody body meant) : Body body meant := by
  induction h with
  | nil => exact .nil
  | cons first _ ih => exact .cons first.character ih

theorem Items.elements {more : Text} {items : List Text} (h : Items more items) :
    Elements more items := by
  induction h with
  | close => exact .close
  | last isBody isGap => exact .last isBody.body isGap.filler
  | cons isBody isGap isGap' _ ih => exact .cons isBody.body isGap.filler isGap'.filler ih

theorem ValueText.denotes {text : Text} {v : Value} (h : ValueText text v) (hv : v.InRange) :
    Denotes text v := by
  cases h with
  | string isBody => exact .string isBody.body
  | natural nonempty each => exact .natural nonempty each hv
  | negative nonempty each => exact .negative nonempty each hv
  | yes => exact .yes
  | no => exact .no
  | strings isGap isItems => exact .strings isGap.filler isItems.elements

theorem StatementText.states {text : Text} {s : Statement} (h : StatementText text s)
    (hs : s.WellFormed) : States text s := by
  cases h with
  | header isBefore isAfter => exact .header hs isBefore isAfter
  | setting isBefore isAfter isValue =>
    exact .setting hs.1 isBefore isAfter (isValue.denotes hs.2)

/-- Behind a trailer the line ends, or the text does. -/
theorem Trailer.lineOver {trailer t : Text} (h : Trailer trailer)
    (ht : ∀ b ∈ t.head?, b = 0x0A ∨ b = 0x0D) : LineOver (trailer ++ t) := by
  have hspaces {s more : Text} (hs : Spaces s)
      (hmore : ∀ b ∈ more.head?, b = 0x0A ∨ b = 0x0D ∨ b = byte '#') : LineOver (s ++ more) := by
    have hends : RunEnds (fun b => b == 0x20 || b == 0x09) more := by
      intro b hb
      obtain rfl | rfl | rfl := hmore b hb <;> decide
    unfold LineOver
    rw [hends.dropWhile fun b hb => by simpa using hs b hb]
    exact hmore
  cases h with
  | spaces spaces => exact hspaces spaces fun b hb => (ht b hb).imp_right .inl
  | comment spaces oneLine =>
    rw [List.append_assoc]
    exact hspaces spaces fun b hb => .inr (.inr (Option.some.inj hb).symm)

theorem LineEnd.head {ending : Text} (h : LineEnd ending) (t : Text) :
    ∀ b ∈ (ending ++ t).head?, b = 0x0A ∨ b = 0x0D := by
  cases h with
  | lf => exact fun b hb => .inl (Option.some.inj hb).symm
  | crlf => exact fun b hb => .inr (Option.some.inj hb).symm

theorem Trailer.written {trailer : Text} (h : Trailer trailer) : Written trailer [] := by
  cases h with
  | spaces spaces => exact .filler spaces.filler
  | comment spaces oneLine => exact .comment spaces.filler oneLine

theorem Lines.written {t : Text} {statements : List Statement} (h : Lines t statements)
    (hstatements : ∀ s ∈ statements, s.WellFormed) : Written t statements := by
  induction h with
  | nil isGap isTrailer => exact isTrailer.written.of_gap isGap.filler
  | @last gap text trailer s isGap isStatement isTrailer =>
    have hs := hstatements s List.mem_cons_self
    have hover : LineOver trailer := List.append_nil trailer ▸ isTrailer.lineOver nofun
    exact .cons isGap.filler (isStatement.states hs) hover isTrailer.written
  | @cons gap text trailer ending more s _ isGap isStatement isTrailer isEnd _ ih =>
    obtain ⟨hs, hmore⟩ := List.forall_mem_cons.mp hstatements
    have hover : LineOver (trailer ++ (ending ++ more)) := isTrailer.lineOver (isEnd.head more)
    refine .cons isGap.filler (isStatement.states hs) hover ?_
    have hgap : Filler (trailer ++ (ending ++ [])) := isTrailer.filler isEnd .nil
    simpa using (ih hmore).of_gap hgap

/-- The lines of a text, whatever their layout, build the document that is read from it. -/
theorem parse_lines {t : Text} {statements : List Statement} (h : Lines t statements)
    (hstatements : ∀ s ∈ statements, s.WellFormed) :
    parse t = .ok (build [] {} statements) :=
  parse_written (h.written hstatements)

end Layouts

section Building

theorem build_settings (settings : List (Text × Value)) (done : List Section) (current : Section)
    (more : List Statement) :
    build done current (settingsOf settings ++ more) =
      build done { current with
        values :=
          settings.foldl (fun d e => Dictionary.insert e.1 e.2 d) current.values } more := by
  induction settings generalizing current with
  | nil => rfl
  | cons e settings ih => exact ih _

theorem build_section {s : Section} (hs : s.WellFormed) {settings : List (Text × Value)}
    (order : settings.Perm s.values) (done : List Section) (more : List Statement) :
    build done { name := s.name, isEntry := s.isEntry } (settingsOf settings ++ more) =
      build done s more := by
  have hvalues : Dictionary.ofList settings = s.values := Dictionary.ofList_of_perm hs.sorted order
  rw [build_settings]
  exact congrArg (fun values => build done { s with values } more) hvalues

/-- The headers and settings of the sections, in whatever order the settings come, add the sections
to those that were there. -/
theorem build_arranged {sections : List Section} {statements : List Statement}
    (h : Arranged sections statements) (hsections : ∀ s ∈ sections, s.WellFormed)
    (done : List Section) (current : Section) :
    build done current statements = ⟨(current :: done).reverse ++ sections⟩ := by
  induction h generalizing done current with
  | nil => simp [build]
  | cons order _ ih =>
    obtain ⟨hs, hmore⟩ := List.forall_mem_cons.mp hsections
    rw [build, Statement.apply, build_section hs order, ih hmore]
    simp

theorem wellFormed_settings {s : Section} (hs : s.WellFormed) {settings : List (Text × Value)}
    (order : settings.Perm s.values) : ∀ x ∈ settingsOf settings, x.WellFormed := by
  intro x hx
  obtain ⟨e, he, rfl⟩ := List.mem_map.mp hx
  have hmem := order.mem_iff.mp he
  exact ⟨hs.keys e hmem, hs.values e hmem⟩

theorem Arranged.wellFormed {sections : List Section} {statements : List Statement}
    (h : Arranged sections statements) (hnames : ∀ s ∈ sections, IsName s.name)
    (hsections : ∀ s ∈ sections, s.WellFormed) : ∀ x ∈ statements, x.WellFormed := by
  induction h with
  | nil => simp
  | cons order _ ih =>
    obtain ⟨hname, hnames⟩ := List.forall_mem_cons.mp hnames
    obtain ⟨hs, hmore⟩ := List.forall_mem_cons.mp hsections
    refine List.forall_mem_cons.mpr ⟨hname, fun x hx => ?_⟩
    obtain hx | hx := List.mem_append.mp hx
    · exact wellFormed_settings hs order x hx
    · exact ih hnames hmore x hx

/-- Every layout of a document is read as the document. -/
theorem parse_layout {d : Document} (hd : d.WellFormed) {t : Text} (h : d.Layout t) :
    parse t = .ok d := by
  obtain ⟨order, others, lines⟩ := h
  obtain ⟨first, names, sections⟩ := hd
  have hstatements := others.wellFormed names sections
  rw [parse_lines lines fun x hx => (List.mem_append.mp hx).elim
    (wellFormed_settings first order x) (hstatements x)]
  have hbuild := build_section first order []
  rw [hbuild, build_arranged others sections]
  rfl

end Building

section Writing

theorem exists_stringBody (meant : Text) : ∃ body, StringBody body meant := by
  induction meant with
  | nil => exact ⟨_, .nil⟩
  | cons b meant ih =>
    obtain ⟨more, body⟩ := ih
    by_cases hquote : b = byte '"'
    · subst hquote
      exact ⟨_, .cons .quote body⟩
    by_cases hescape : b = byte '\\'
    · subst hescape
      exact ⟨_, .cons .backslash body⟩
    by_cases hend : b = 0x0A
    · subst hend
      exact ⟨_, .cons .lineFeed body⟩
    · exact ⟨_, .cons (.plain hquote hescape hend) body⟩

theorem exists_items (items : List Text) : ∃ more, Items more items := by
  induction items with
  | nil => exact ⟨_, .close⟩
  | cons meant items ih =>
    obtain ⟨body, isBody⟩ := exists_stringBody meant
    obtain ⟨more, isItems⟩ := ih
    exact ⟨_, .cons isBody (.spaces .nil) (.spaces .nil) isItems⟩

theorem exists_valueText (v : Value) : ∃ text, ValueText text v := by
  cases v with
  | string meant =>
    obtain ⟨body, isBody⟩ := exists_stringBody meant
    exact ⟨_, .string isBody⟩
  | strings items =>
    obtain ⟨more, isItems⟩ := exists_items items
    exact ⟨_, .strings (.spaces .nil) isItems⟩
  | bool b =>
    cases b with
    | true => exact ⟨_, .yes⟩
    | false => exact ⟨_, .no⟩
  | integer i =>
    have hdigits : ∀ n, ∀ b ∈ Text.ofNat n, Text.isDigit b = true := fun n b hb =>
      Text.isDigit_of_mem_ofNat hb
    obtain ⟨n, rfl | rfl⟩ := i.eq_nat_or_neg
    · have hnatural := ValueText.natural (Text.ofNat_ne_nil n) (hdigits n)
      rw [Text.digitsValue_ofNat] at hnatural
      exact ⟨_, hnatural⟩
    · have hnegative := ValueText.negative (Text.ofNat_ne_nil n) (hdigits n)
      rw [Text.digitsValue_ofNat] at hnegative
      exact ⟨_, hnegative⟩

theorem exists_statementText (s : Statement) : ∃ text, StatementText text s := by
  cases s with
  | header title isEntry => exact ⟨_, .header .nil .nil⟩
  | setting key v =>
    obtain ⟨text, isValue⟩ := exists_valueText v
    exact ⟨_, .setting .nil .nil isValue⟩

theorem exists_lines (statements : List Statement) : ∃ t, Lines t statements := by
  induction statements with
  | nil => exact ⟨_, .nil (.spaces .nil) (.spaces .nil)⟩
  | cons s statements ih =>
    obtain ⟨text, isStatement⟩ := exists_statementText s
    obtain ⟨more, lines⟩ := ih
    exact ⟨_, .cons (.spaces .nil) isStatement (.spaces .nil) .lf lines⟩

theorem exists_arranged (sections : List Section) :
    ∃ statements, Arranged sections statements := by
  induction sections with
  | nil => exact ⟨_, .nil⟩
  | cons s sections ih =>
    obtain ⟨statements, others⟩ := ih
    exact ⟨_, .cons (.refl s.values) others⟩

/-- Every document with an unnamed table in front can be written. -/
theorem exists_layout {d : Document} (hd : d.WellFormed) : ∃ t, d.Layout t := by
  obtain @⟨values, sections, -, -, -⟩ := hd
  obtain ⟨statements, others⟩ := exists_arranged sections
  obtain ⟨t, lines⟩ := exists_lines (settingsOf values ++ statements)
  exact ⟨t, .mk (.refl values) others lines⟩

end Writing

/-- A document can be written, and every way to write it is read as the document. -/
theorem layouts_read_back {d : Document} (hd : d.WellFormed) :
    (∃ t, d.Layout t) ∧ ∀ t, d.Layout t → parse t = .ok d :=
  ⟨exists_layout hd, fun _ h => parse_layout hd h⟩

/-- The least integer, and an entry with a list and a word. -/
def toolManifest : Document :=
  ⟨[⟨[], false, [(utf8 "level", .integer (-2 ^ 63))]⟩,
    ⟨utf8 "tool", true, [(utf8 "args", .strings [utf8 "a\"b"]), (utf8 "on", .bool true)]⟩]⟩

theorem toolManifest_wellFormed : toolManifest.WellFormed := by
  refine .mk ⟨?_, ?_, ?_⟩ ?_ ?_
  · exact List.pairwise_singleton _ _
  · decide +kernel
  · decide
  · decide +kernel
  · intro s hs
    obtain rfl := List.mem_singleton.mp hs
    refine ⟨?_, ?_, ?_⟩
    · unfold Dictionary.IsSorted
      decide
    · decide +kernel
    · decide

/-- The manifest with its last two settings exchanged, with comments and a carriage return. -/
def toolManifestText : Text :=
  utf8 "#\n level= -9223372036854775808\r\n[[tool ]]\non=true#\nargs=[\"a\\\"b\"#\n,]"

theorem toolManifest_layout : toolManifest.Layout toolManifestText := by
  have hspace : Spaces [0x20] := fun b hb => .inl (List.mem_singleton.mp hb)
  have hcomment : Trailer [byte '#'] := @Trailer.comment [] [] .nil List.not_mem_nil
  have hgap : Gap [byte '#', 0x0A, 0x20] := .line hcomment .lf (.spaces hspace)
  have hlevel : ValueText (utf8 "-9223372036854775808") (.integer (-2 ^ 63)) :=
    @ValueText.negative (utf8 "9223372036854775808") (by decide) (by decide +kernel)
  have hlevel : StatementText (utf8 "level= -9223372036854775808") _ :=
    @StatementText.setting (utf8 "level") _ _ _ _ .nil hspace hlevel
  have htool : StatementText (utf8 "[[tool ]]") _ :=
    @StatementText.header (utf8 "tool") _ _ true .nil hspace
  have hon : StatementText (utf8 "on=true") _ :=
    @StatementText.setting (utf8 "on") _ _ _ _ .nil .nil .yes
  have hquoted : StringBody (utf8 "a\\\"b") (utf8 "a\"b") :=
    .cons (.plain (by decide) (by decide) (by decide)) (.cons .quote
      (.cons (.plain (by decide) (by decide) (by decide)) .nil))
  have hitems : ValueText (utf8 "[\"a\\\"b\"#\n,]") (.strings [utf8 "a\"b"]) :=
    .strings (.spaces .nil)
      (.cons hquoted (.line hcomment .lf (.spaces .nil)) (.spaces .nil) .close)
  have hargs : StatementText (utf8 "args=[\"a\\\"b\"#\n,]") _ :=
    @StatementText.setting (utf8 "args") _ _ _ _ .nil .nil hitems
  have hlines := Lines.cons hgap hlevel (.spaces .nil) .crlf
    (.cons (.spaces .nil) htool (.spaces .nil) .lf
      (.cons (.spaces .nil) hon hcomment .lf (.last (.spaces .nil) hargs (.spaces .nil))))
  have horder : [(utf8 "on", Value.bool true), (utf8 "args", .strings [utf8 "a\"b"])].Perm
      [(utf8 "args", .strings [utf8 "a\"b"]), (utf8 "on", .bool true)] := .swap _ _ []
  exact .mk (.refl [(utf8 "level", Value.integer (-2 ^ 63))]) (.cons horder .nil) hlines

theorem layouts_read_back_of_toolManifest :
    toolManifest.WellFormed ∧ toolManifest.Layout toolManifestText ∧
      parse toolManifestText = .ok toolManifest :=
  ⟨toolManifest_wellFormed, toolManifest_layout,
    (layouts_read_back toolManifest_wellFormed).2 _ toolManifest_layout⟩

end NativeBuild.Manifest
