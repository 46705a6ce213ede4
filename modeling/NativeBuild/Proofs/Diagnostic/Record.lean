import NativeBuild.Proofs.Diagnostic.Tail
import NativeBuild.Proofs.Json.Members

/-!
# What a record says

A record is an object, and five of its names matter: the last members named so hold the severity,
the message and the place of the diagnostic. A part of a record that is cut off is no record, unless
only blanks are missing, so the last look at a file hands on nothing that was not written there.
-/
namespace NativeBuild

/-- The severity that a type names, in any case. A type that names neither an error nor a warning
nor an information is that of a message. -/
inductive Severity.NamedBy (type : Text) : Severity → Prop where
  | name {s : Severity} (notMessage : s ≠ .message) (named : Text.toLower type = s.name) :
      NamedBy type s
  | other (notNamed : ∀ s : Severity, s ≠ .message → Text.toLower type ≠ s.name) :
      NamedBy type .message

theorem Severity.ofType_eq (type : Text) : ofType type =
    if Text.toLower type = name .error then .error
    else if Text.toLower type = name .warning then .warning
    else if Text.toLower type = name .info then .info
    else .message := by
  have hlower : ∀ s : Severity, Text.toLower s.name = s.name := by
    intro s
    cases s <;> decide +kernel
  simp only [ofType, Text.equalsIgnoringCase_iff]
  exact if_congr (by rw [← hlower .error]; rfl) rfl (if_congr (by rw [← hlower .warning]; rfl) rfl
    (if_congr (by rw [← hlower .info]; rfl) rfl rfl))

theorem Severity.ofType_eq_iff (type : Text) (s : Severity) :
    ofType type = s ↔ s.NamedBy type := by
  have hapart : name .error ≠ name .warning ∧ name .error ≠ name .info ∧
      name .warning ≠ name .info := by decide +kernel
  obtain ⟨hwarning, hinfo, hinfo'⟩ := hapart
  rw [ofType_eq]
  constructor
  · rintro rfl
    split_ifs with h1 h2 h3
    · exact .name (by decide) h1
    · exact .name (by decide) h2
    · exact .name (by decide) h3
    · refine .other fun s hs => ?_
      cases s with
      | error => exact h1
      | warning => exact h2
      | info => exact h3
      | message => exact absurd rfl hs
  · rintro (⟨notMessage, named⟩ | notNamed)
    · cases s with
      | error => rw [if_pos named]
      | warning => rw [named, if_neg hwarning.symm, if_pos rfl]
      | info => rw [named, if_neg hinfo.symm, if_neg hinfo'.symm, if_pos rfl]
      | message => exact absurd rfl notMessage
    · rw [if_neg (notNamed .error (by decide)), if_neg (notNamed .warning (by decide)),
        if_neg (notNamed .info (by decide))]

namespace Json

/-- A string, as it is written between quotes. -/
def Element.WritesString (e : Element) (meant : Text) : Prop :=
  ∃ written, Characters written meant ∧ e.text = byte '"' :: (written ++ [byte '"'])

/-- A number with neither fraction nor exponent, and its exact value. -/
def Element.WritesInteger (e : Element) (i : ℤ) : Prop :=
  ∃ n, NumberText e.text n ∧ n.plain = true ∧ n.signed = i

theorem Value.string?_eq_some_iff (v : Value) (s : Text) :
    v.string? = some s ↔ v = .string s := by
  cases v <;> simp [string?]

theorem Value.integer?_eq_some_iff (v : Value) (i : ℤ) :
    v.integer? = some i ↔ v = .integer i := by
  cases v <;> simp [integer?]

end Json

namespace Diagnostic

open Json

variable {t : Text} {members : List Member} {d : Diagnostic}

/-- The last member of a name is a string, and this is its text. -/
def TextNamed (name : Text) (members : List Member) (s : Text) : Prop :=
  ∃ e ∈ lastNamed? name members, e.WritesString s

/-- The last member of a name is an integer, and this is one that is kept as a line or a column. -/
def PositionNamed (name : Text) (members : List Member) (i : ℤ) : Prop :=
  ∃ e ∈ lastNamed? name members, e.WritesInteger i ∧ 0 ≤ i ∧ i ≤ 2147483647

/-- What the members of a record say. -/
structure ToldBy (members : List Member) (d : Diagnostic) : Prop where
  severity : ∃ type, TextNamed (utf8 "type") members type ∧ d.severity.NamedBy type
  message : TextNamed (utf8 "text") members d.message
  file : ∀ s, d.file = some s ↔ TextNamed (utf8 "file") members s
  line : ∀ i, d.line = some i ↔ PositionNamed (utf8 "line") members i
  column : ∀ i, d.column = some i ↔ PositionNamed (utf8 "column") members i

/-- The value of a record with some members. -/
def recordOf (members : List Member) : Value :=
  .object (Dictionary.ofList (members.map Member.entry))

theorem string?_recordOf (h : ObjectText t members) (name s : Text) :
    ((recordOf members).member? name).bind Value.string? = some s ↔ TextNamed name members s := by
  rw [recordOf, member?_ofList, Option.bind_map, Option.bind_eq_some_iff]
  refine exists_congr fun e => and_congr_right fun he => ?_
  rw [Function.comp_apply, Value.string?_eq_some_iff]
  exact (h.denotes_lastNamed he).eq_string_iff (by decide) s

theorem position?_recordOf (h : ObjectText t members) (name : Text) (i : ℤ) :
    position? (recordOf members) name = some i ↔ PositionNamed name members i := by
  have hposition : position? (recordOf members) name =
      (((lastNamed? name members).map (·.value)).bind Value.integer?).bind fun i =>
        if 0 ≤ i ∧ i ≤ maxPosition then some i else none := by
    rw [← member?_ofList, Option.bind_assoc]
    rfl
  rw [hposition, Option.bind_map]
  simp only [Option.bind_eq_some_iff, Function.comp_apply, Value.integer?_eq_some_iff]
  constructor
  · rintro ⟨j, ⟨e, he, hvalue⟩, hrange⟩
    split at hrange
    · next hj =>
      obtain rfl := Option.some.inj hrange
      obtain ⟨n, isNumber, isInteger, rfl⟩ :=
        ((h.denotes_lastNamed he).eq_integer_iff (by decide) _).mp hvalue
      exact ⟨e, he, ⟨n, isNumber, isInteger.1, rfl⟩, hj⟩
    · cases hrange
  · rintro ⟨e, he, ⟨n, isNumber, plain, rfl⟩, hrange⟩
    have isInteger : n.IsInteger := ⟨plain, by omega, by omega⟩
    refine ⟨n.signed, ⟨e, he, ?_⟩, if_pos hrange⟩
    exact ((h.denotes_lastNamed he).eq_integer_iff (by decide) _).mpr ⟨n, isNumber, isInteger, rfl⟩

theorem ofValue?_eq_some_iff (record : Value) (d : Diagnostic) : ofValue? record = some d ↔
    ∃ type, (record.member? (utf8 "type")).bind Value.string? = some type ∧
      (record.member? (utf8 "text")).bind Value.string? = some d.message ∧
      Severity.ofType type = d.severity ∧
      (record.member? (utf8 "file")).bind Value.string? = d.file ∧
      position? record (utf8 "line") = d.line ∧ position? record (utf8 "column") = d.column := by
  have hofValue : ofValue? record =
      ((record.member? (utf8 "type")).bind Value.string?).bind fun type =>
        ((record.member? (utf8 "text")).bind Value.string?).bind fun message =>
          some ⟨.ofType type, message, (record.member? (utf8 "file")).bind Value.string?,
            position? record (utf8 "line"), position? record (utf8 "column")⟩ := by
    rw [Option.bind_assoc]
    refine congrArg _ (funext fun type => congrArg _ (funext fun text => ?_))
    rw [Option.bind_assoc]
    rfl
  rw [hofValue]
  simp only [Option.bind_eq_some_iff, Option.some.injEq]
  constructor
  · rintro ⟨type, htype, message, hmessage, rfl⟩
    exact ⟨type, htype, hmessage, rfl, rfl, rfl, rfl⟩
  · rintro ⟨type, htype, hmessage, hseverity, hfile, hline, hcolumn⟩
    refine ⟨type, htype, d.message, hmessage, ?_⟩
    rw [hseverity, hfile, hline, hcolumn]

/-- A record is an object. -/
theorem exists_object_of_parse? (h : parse? t = some d) :
    ∃ found, Json.parse t = .ok (.object found) ∧ ofValue? (.object found) = some d := by
  rw [parse?_eq, Option.bind_eq_some_iff] at h
  obtain ⟨record, hrecord, hd⟩ := h
  cases hparse : Json.parse t with
  | error e =>
    rw [hparse] at hrecord
    cases hrecord
  | ok v =>
    rw [hparse] at hrecord
    obtain rfl := Option.some.inj hrecord
    cases v with
    | object found => exact ⟨found, rfl, hd⟩
    | null | bool | integer | real | string | array => cases hd

theorem parse?_of_object (h : ObjectText t members) : parse? t = ofValue? (recordOf members) := by
  rw [parse?_eq, h.parse_eq]
  rfl

theorem parse?_eq_some_iff_toldBy (h : ObjectText t members) (d : Diagnostic) :
    parse? t = some d ↔ ToldBy members d := by
  rw [parse?_of_object h, ofValue?_eq_some_iff]
  constructor
  · rintro ⟨type, htype, hmessage, hseverity, hfile, hline, hcolumn⟩
    refine ⟨⟨type, (string?_recordOf h _ _).mp htype, ?_⟩, (string?_recordOf h _ _).mp hmessage,
      fun s => ?_, fun i => ?_, fun i => ?_⟩
    · exact (Severity.ofType_eq_iff _ _).mp hseverity
    · rw [← hfile, string?_recordOf h]
    · rw [← hline, position?_recordOf h]
    · rw [← hcolumn, position?_recordOf h]
  · rintro ⟨⟨type, htype, hnamed⟩, hmessage, hfile, hline, hcolumn⟩
    refine ⟨type, (string?_recordOf h _ _).mpr htype, (string?_recordOf h _ _).mpr hmessage,
      (Severity.ofType_eq_iff _ _).mpr hnamed, ?_, ?_, ?_⟩
    · exact Option.ext fun s => (string?_recordOf h _ s).trans (hfile s).symm
    · exact Option.ext fun i => (position?_recordOf h _ i).trans (hline i).symm
    · exact Option.ext fun i => (position?_recordOf h _ i).trans (hcolumn i).symm

/-- There is a diagnostic in an object exactly when a type and a text are there. -/
theorem exists_parse?_iff (h : ObjectText t members) : (∃ d, parse? t = some d) ↔
    (∃ type, TextNamed (utf8 "type") members type) ∧
      ∃ message, TextNamed (utf8 "text") members message := by
  rw [parse?_of_object h]
  constructor
  · rintro ⟨d, hd⟩
    obtain ⟨type, htype, hmessage, -⟩ := (ofValue?_eq_some_iff _ _).mp hd
    exact ⟨⟨type, (string?_recordOf h _ _).mp htype⟩, _, (string?_recordOf h _ _).mp hmessage⟩
  · rintro ⟨⟨type, htype⟩, message, hmessage⟩
    have htype := (string?_recordOf h _ _).mpr htype
    have hmessage := (string?_recordOf h _ _).mpr hmessage
    exact ⟨⟨_, message, _, _, _⟩, (ofValue?_eq_some_iff _ _).mpr
      ⟨type, htype, hmessage, rfl, rfl, rfl, rfl⟩⟩

/-- The names that are looked up in a record. -/
def fieldNames : List Text := [utf8 "type", utf8 "text", utf8 "file", utf8 "line", utf8 "column"]

/-- The same value is found under each name that is looked up. -/
def SameFields (members others : List Member) : Prop :=
  ∀ name ∈ fieldNames,
    (lastNamed? name others).map (·.value) = (lastNamed? name members).map (·.value)

theorem parse?_eq_of_sameFields {t' : Text} {others : List Member} (h : ObjectText t members)
    (h' : ObjectText t' others) (hsame : SameFields members others) : parse? t' = parse? t := by
  have hmember : ∀ name ∈ fieldNames,
      (recordOf others).member? name = (recordOf members).member? name := by
    intro name hname
    rw [recordOf, recordOf, member?_ofList, member?_ofList, hsame name hname]
  have htype := hmember (utf8 "type") (by simp [fieldNames])
  have htext := hmember (utf8 "text") (by simp [fieldNames])
  have hfile := hmember (utf8 "file") (by simp [fieldNames])
  have hline := hmember (utf8 "line") (by simp [fieldNames])
  have hcolumn := hmember (utf8 "column") (by simp [fieldNames])
  rw [parse?_of_object h, parse?_of_object h']
  simp only [ofValue?, position?, htype, htext, hfile, hline, hcolumn]

/-- The diagnostic in an object is what the last members of five names say, if there are a type and
a text. Objects in which these members have the same values hold the same diagnostic, whatever else
is written there, in whatever order and with whatever escapes and blanks. -/
theorem record_toldBy_members {found : Dictionary Value} (h : Json.parse t = .ok (.object found)) :
    (∃ members, ObjectText t members) ∧ ∀ members, ObjectText t members →
      ((∃ d, parse? t = some d) ↔ (∃ type, TextNamed (utf8 "type") members type) ∧
        ∃ message, TextNamed (utf8 "text") members message) ∧
      (∀ d, parse? t = some d ↔ ToldBy members d) ∧
      ∀ t' others, ObjectText t' others → SameFields members others → parse? t' = parse? t :=
  ⟨exists_objectText h, fun _ hmembers => ⟨exists_parse?_iff hmembers,
    parse?_eq_some_iff_toldBy hmembers, fun _ _ => parse?_eq_of_sameFields hmembers⟩⟩

/-- The type is repeated and written with an escape, and the column is one too large. -/
def awkwardRecord : Text :=
  utf8 " \x7b\"type\":1, \"x\":[\x7b\x7d], \"\\u0074ype\":\"WARNING\", \"text\":\"a\\n\","
    ++ utf8 "\"line\":2147483647 , \"column\":2147483648\x7d "

theorem record_toldBy_members_of_awkwardRecord :
    ∃ found, Json.parse awkwardRecord = .ok (.object found) ∧
      ∃ members, ObjectText awkwardRecord members ∧
        ToldBy members
          { severity := .warning, message := utf8 "a\n", line := some 2147483647 } := by
  have hparse : parse? awkwardRecord = some
      { severity := .warning, message := utf8 "a\n", line := some 2147483647 } := by
    decide +kernel
  obtain ⟨found, hfound, -⟩ := exists_object_of_parse? hparse
  obtain ⟨⟨members, hmembers⟩, htold⟩ := record_toldBy_members hfound
  exact ⟨found, hfound, members, hmembers, ((htold members hmembers).2.1 _).mp hparse⟩

/-! ### Records that are cut off -/

theorem parse?_of_prefix {p r : Text} (hr : parse? r = some d) (hp : p <+: r) :
    parse? p = none ∨ parse? p = some d ∧ ∃ blanks, Blank blanks ∧ r = p ++ blanks := by
  obtain ⟨found, hfound, hd⟩ := exists_object_of_parse? hr
  rw [or_iff_not_imp_left]
  intro hsome
  obtain ⟨d', hd'⟩ := Option.ne_none_iff_exists'.mp hsome
  obtain ⟨part, hpart, -⟩ := exists_object_of_parse? hd'
  obtain ⟨hsame, hblanks⟩ := parse_eq_of_prefix hfound rfl hp hpart
  refine ⟨?_, hblanks⟩
  rw [parse?_eq, hpart, hsame]
  exact hd

/-- What is held back at the end is handed on if there is a diagnostic in it. -/
theorem handed_finish (file : Path) (report : Diagnostic → SessionM Unit) (o : Tail.Outcome)
    (s : Session) : (o.look file report Tail.finish s).handed =
      (o.look file report Tail.poll s).handed ++
        taken (events [(o.look file report Tail.poll s).tail.pending]) := by
  simp only [Tail.Outcome.look_eq, Tail.finish, taken_append, List.append_assoc]

theorem taken_events_singleton {line : Text} (h : parse? line = none ∨ parse? line = some d) :
    taken (events [line]) = [] ∨ taken (events [line]) = [d] := by
  rw [taken_events]
  cases hblank : isBlankLine line with
  | true => exact .inl (by simp [hblank])
  | false =>
    obtain hnone | hsome := h
    · exact .inl (by simp [hblank, hnone])
    · exact .inr (by simp [hblank, hsome])

/-- A record that is cut off is no record, unless nothing but blanks is missing, and then it holds
the same diagnostic. So if the last look at a file finds no more than a part of a record behind the
last line feed, the sink is handed nothing for it, or the diagnostic that the whole record holds. -/
theorem cut_record_not_mistaken {p r : Text} (hr : parse? r = some d) (hp : p <+: r) :
    (parse? p = none ∨ parse? p = some d ∧ ∃ blanks, Blank blanks ∧ r = p ++ blanks) ∧
      ∀ (file : Path) (report : Diagnostic → SessionM Unit) (o : Tail.Outcome) (s : Session),
        (o.look file report Tail.poll s).tail.pending = p →
          (o.look file report Tail.finish s).handed = (o.look file report Tail.poll s).handed ∨
          (o.look file report Tail.finish s).handed =
            (o.look file report Tail.poll s).handed ++ [d] := by
  have hcut := parse?_of_prefix hr hp
  refine ⟨hcut, fun file report o s hpending => ?_⟩
  rw [handed_finish, hpending]
  obtain hnothing | hsame := taken_events_singleton (hcut.imp_right And.left)
  · exact .inl (by rw [hnothing, List.append_nil])
  · exact .inr (by rw [hsame])

/-- Of a record with a space behind it two bytes are missing, or one. -/
theorem cut_record_not_mistaken_of_sample :
    let d : Diagnostic := { severity := .error, message := utf8 "é" }
    let whole := Tail.sampleRecord ++ utf8 " "
    let part := Tail.sampleRecord.dropLast
    let last := Tail.holding (some Tail.sampleRecord)
    let look := ({} : Tail.Outcome).look (utf8 "/d") Diagnostic.log
    (parse? whole = some d ∧ part <+: whole ∧ parse? part = none) ∧
      Tail.sampleRecord <+: whole ∧
      (look Tail.poll last).tail.pending = Tail.sampleRecord ∧
      (look Tail.finish last).handed = [d] := by
  intro d whole part last look
  have hwhole : parse? whole = some d := by decide +kernel
  have hpart : part <+: whole := by decide +kernel
  have hrecord : Tail.sampleRecord <+: whole := by decide +kernel
  have hpending : (look Tail.poll last).tail.pending = Tail.sampleRecord := by decide +kernel
  have hpolled : (look Tail.poll last).handed = [] := by decide +kernel
  refine ⟨⟨hwhole, hpart, ?_⟩, hrecord, hpending, ?_⟩
  · obtain hnone | ⟨hsome, -⟩ := (cut_record_not_mistaken hwhole hpart).1
    · exact hnone
    · exact absurd hsome (by decide +kernel)
  · obtain hnothing | hsame :=
      (cut_record_not_mistaken hwhole hrecord).2 (utf8 "/d") Diagnostic.log {} last hpending
    · exact absurd hnothing (by decide +kernel)
    · rw [hpolled] at hsame
      exact hsame

end NativeBuild.Diagnostic
