import Mathlib.Algebra.Group.Int.Defs
import Mathlib.Data.List.Basic
import NativeBuild.Manifest.Reader
import NativeBuild.Proofs.Dictionary

/-!
# Layouts of a manifest

A document can be written in many ways. The settings of a section may stand in any order, blank
lines and comments between them, spaces and tabs around names and values, and the lines may end in
a line feed with or without a carriage return. `Document.Layout d t` says that `t` is one of the
ways to write `d`.
-/
namespace NativeBuild.Manifest

/-- Spaces and tabs. -/
def Spaces (t : Text) : Prop := ∀ b ∈ t, b = 0x20 ∨ b = 0x09

theorem Spaces.nil : Spaces [] := fun _ h => absurd h List.not_mem_nil

/-- The end of a line. -/
inductive LineEnd : Text → Prop where
  | lf : LineEnd [0x0A]
  | crlf : LineEnd [0x0D, 0x0A]

/-- What may stand behind the last word of a line: spaces, and a comment. -/
inductive Trailer : Text → Prop where
  | spaces {t : Text} (spaces : Spaces t) : Trailer t
  | comment {t words : Text} (spaces : Spaces t) (oneLine : 0x0A ∉ words) :
      Trailer (t ++ byte '#' :: words)

/-- Lines without a word, and the spaces in front of the next word. -/
inductive Gap : Text → Prop where
  | spaces {t : Text} (spaces : Spaces t) : Gap t
  | line {trailer ending more : Text} (isTrailer : Trailer trailer) (isEnd : LineEnd ending)
      (gap : Gap more) : Gap (trailer ++ ending ++ more)

/-- A byte of a string as it may be written. -/
inductive StringByte : Text → UInt8 → Prop where
  | plain {b : UInt8} (notQuote : b ≠ byte '"') (notEscape : b ≠ byte '\\') (notEnd : b ≠ 0x0A) :
      StringByte [b] b
  | quote : StringByte [byte '\\', byte '"'] (byte '"')
  | backslash : StringByte [byte '\\', byte '\\'] (byte '\\')
  | lineFeed : StringByte [byte '\\', byte 'n'] 0x0A
  | carriageReturn : StringByte [byte '\\', byte 'r'] 0x0D
  | tab : StringByte [byte '\\', byte 't'] 0x09

/-- The bytes of a string between its quotes. -/
inductive StringBody : Text → Text → Prop where
  | nil : StringBody [] []
  | cons {written more meant : Text} {b : UInt8} (first : StringByte written b)
      (body : StringBody more meant) : StringBody (written ++ more) (b :: meant)

/-- A list behind its opening bracket and a gap. The last string may have a comma. -/
inductive Items : Text → List Text → Prop where
  | close : Items [byte ']'] []
  | last {body meant gap : Text} (isBody : StringBody body meant) (isGap : Gap gap) :
      Items (byte '"' :: (body ++ byte '"' :: (gap ++ [byte ']']))) [meant]
  | cons {body meant gap gap' more : Text} {items : List Text} (isBody : StringBody body meant)
      (isGap : Gap gap) (isGap' : Gap gap') (isItems : Items more items) :
      Items (byte '"' :: (body ++ byte '"' :: (gap ++ byte ',' :: (gap' ++ more)))) (meant :: items)

/-- A value as it may be written. -/
inductive ValueText : Text → Value → Prop where
  | string {body meant : Text} (isBody : StringBody body meant) :
      ValueText (byte '"' :: (body ++ [byte '"'])) (.string meant)
  | natural {digits : Text} (nonempty : digits ≠ [])
      (each : ∀ b ∈ digits, Text.isDigit b = true) :
      ValueText digits (.integer (Text.digitsValue digits))
  | negative {digits : Text} (nonempty : digits ≠ [])
      (each : ∀ b ∈ digits, Text.isDigit b = true) :
      ValueText (byte '-' :: digits) (.integer (-Text.digitsValue digits))
  | yes : ValueText (utf8 "true") (.bool true)
  | no : ValueText (utf8 "false") (.bool false)
  | strings {gap more : Text} {items : List Text} (isGap : Gap gap) (isItems : Items more items) :
      ValueText (byte '[' :: (gap ++ more)) (.strings items)

/-- A line with words: a header or a setting. -/
inductive Statement where
  | header (title : Text) (isEntry : Bool)
  | setting (key : Text) (value : Value)

/-- The brackets of a header, one pair or two. -/
def brackets (b : UInt8) (isEntry : Bool) : Text := if isEntry then [b, b] else [b]

/-- A statement from its first word to its last. -/
inductive StatementText : Text → Statement → Prop where
  | header {title before after : Text} {isEntry : Bool} (isBefore : Spaces before)
      (isAfter : Spaces after) :
      StatementText
        (brackets (byte '[') isEntry ++
          (before ++ (title ++ (after ++ brackets (byte ']') isEntry))))
        (.header title isEntry)
  | setting {key before after text : Text} {v : Value} (isBefore : Spaces before)
      (isAfter : Spaces after) (isValue : ValueText text v) :
      StatementText (key ++ (before ++ byte '=' :: (after ++ text))) (.setting key v)

/-- The lines of a text. The last line need not have an end. -/
inductive Lines : Text → List Statement → Prop where
  | nil {gap trailer : Text} (isGap : Gap gap) (isTrailer : Trailer trailer) :
      Lines (gap ++ trailer) []
  | last {gap text trailer : Text} {s : Statement} (isGap : Gap gap)
      (isStatement : StatementText text s) (isTrailer : Trailer trailer) :
      Lines (gap ++ (text ++ trailer)) [s]
  | cons {gap text trailer ending more : Text} {s : Statement} {statements : List Statement}
      (isGap : Gap gap) (isStatement : StatementText text s) (isTrailer : Trailer trailer)
      (isEnd : LineEnd ending) (lines : Lines more statements) :
      Lines (gap ++ (text ++ (trailer ++ (ending ++ more)))) (s :: statements)

def settingsOf (settings : List (Text × Value)) : List Statement :=
  settings.map fun e => .setting e.1 e.2

/-- Every section is its header and its settings in some order. -/
inductive Arranged : List Section → List Statement → Prop where
  | nil : Arranged [] []
  | cons {s : Section} {sections : List Section} {settings : List (Text × Value)}
      {statements : List Statement} (order : settings.Perm s.values)
      (others : Arranged sections statements) :
      Arranged (s :: sections) (.header s.name s.isEntry :: (settingsOf settings ++ statements))

/-- A text that is a way to write a document: the settings of the first table, and then the other
sections. -/
inductive Document.Layout : Document → Text → Prop where
  | mk {first : Section} {sections : List Section} {settings : List (Text × Value)}
      {statements : List Statement} {t : Text} (order : settings.Perm first.values)
      (others : Arranged sections statements)
      (lines : Lines t (settingsOf settings ++ statements)) :
      Layout ⟨first :: sections⟩ t

/-- Letters, digits, underscores, dashes and points. -/
def IsName (t : Text) : Prop := t ≠ [] ∧ ∀ b ∈ t, isNameByte b = true

instance (t : Text) : Decidable (IsName t) := inferInstanceAs (Decidable (_ ∧ _))

/-- Integers have 64 bits. -/
def Value.InRange : Value → Prop
  | .integer i => -2 ^ 63 ≤ i ∧ i < 2 ^ 63
  | _ => True

instance : DecidablePred Value.InRange
  | .integer _ => inferInstanceAs (Decidable (_ ∧ _))
  | .string _ | .bool _ | .strings _ => inferInstanceAs (Decidable True)

/-- Settings are kept by increasing key, each key once. -/
structure Section.WellFormed (s : Section) : Prop where
  sorted : s.values.IsSorted
  keys : ∀ e ∈ s.values, IsName e.1
  values : ∀ e ∈ s.values, e.2.InRange

/-- The first section is the table without a name; all others have one. -/
inductive Document.WellFormed : Document → Prop where
  | mk {values : Dictionary Value} {sections : List Section}
      (first : Section.WellFormed ⟨[], false, values⟩) (names : ∀ s ∈ sections, IsName s.name)
      (others : ∀ s ∈ sections, s.WellFormed) : WellFormed ⟨⟨[], false, values⟩ :: sections⟩

end NativeBuild.Manifest
