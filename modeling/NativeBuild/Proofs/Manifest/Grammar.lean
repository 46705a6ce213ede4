import NativeBuild.Proofs.Manifest.Layout

/-!
# The texts that are manifests

More texts are read than the layouts of documents. All kinds of blanks may stand between the lines,
a carriage return alone ends a line, and a backslash in a string may stand before any byte, so that
a string goes on in the next line behind one. `Written t statements` describes all of these texts
and the lines with words that they consist of.
-/
namespace NativeBuild.Manifest

/-- Blanks, and comments that end with their lines. -/
inductive Filler : Text → Prop where
  | nil : Filler []
  | blank {b : UInt8} {t : Text} (isBlank : Text.isBlank b = true) (more : Filler t) :
      Filler (b :: t)
  | comment {words t : Text} (oneLine : 0x0A ∉ words) (more : Filler t) :
      Filler (byte '#' :: (words ++ 0x0A :: t))

theorem Filler.append {gap more : Text} (h : Filler gap) (hmore : Filler more) :
    Filler (gap ++ more) := by
  induction h with
  | nil => exact hmore
  | blank isBlank _ ih => exact .blank isBlank ih
  | comment oneLine _ ih =>
    rw [List.cons_append, List.append_assoc]
    exact .comment oneLine ih

/-- A byte of a string. Behind a backslash any byte may stand, even a line feed. -/
inductive Character : Text → UInt8 → Prop where
  | plain {b : UInt8} (notQuote : b ≠ byte '"') (notEscape : b ≠ byte '\\') (notEnd : b ≠ 0x0A) :
      Character [b] b
  | escaped (b : UInt8) : Character [byte '\\', b] (unescape b)

/-- What stands between the quotes of a string. -/
inductive Body : Text → Text → Prop where
  | nil : Body [] []
  | cons {written more meant : Text} {b : UInt8} (first : Character written b)
      (body : Body more meant) : Body (written ++ more) (b :: meant)

/-- A list behind its opening bracket and what fills the place to its first string. -/
inductive Elements : Text → List Text → Prop where
  | close : Elements [byte ']'] []
  | last {body meant gap : Text} (isBody : Body body meant) (isFiller : Filler gap) :
      Elements (byte '"' :: (body ++ byte '"' :: (gap ++ [byte ']']))) [meant]
  | cons {body meant gap gap' more : Text} {items : List Text} (isBody : Body body meant)
      (isFiller : Filler gap) (isFiller' : Filler gap') (others : Elements more items) :
      Elements (byte '"' :: (body ++ byte '"' :: (gap ++ byte ',' :: (gap' ++ more))))
        (meant :: items)

/-- The texts of a value. -/
inductive Denotes : Text → Value → Prop where
  | string {body meant : Text} (isBody : Body body meant) :
      Denotes (byte '"' :: (body ++ [byte '"'])) (.string meant)
  | natural {digits : Text} (nonempty : digits ≠ [])
      (each : ∀ b ∈ digits, Text.isDigit b = true)
      (inRange : (Value.integer (Text.digitsValue digits)).InRange) :
      Denotes digits (.integer (Text.digitsValue digits))
  | negative {digits : Text} (nonempty : digits ≠ [])
      (each : ∀ b ∈ digits, Text.isDigit b = true)
      (inRange : (Value.integer (-Text.digitsValue digits)).InRange) :
      Denotes (byte '-' :: digits) (.integer (-Text.digitsValue digits))
  | yes : Denotes (utf8 "true") (.bool true)
  | no : Denotes (utf8 "false") (.bool false)
  | strings {gap more : Text} {items : List Text} (isFiller : Filler gap)
      (elements : Elements more items) : Denotes (byte '[' :: (gap ++ more)) (.strings items)

/-- The texts of a statement, from its first word to its last. -/
inductive States : Text → Statement → Prop where
  | header {title before after : Text} {isEntry : Bool} (isName : IsName title)
      (isBefore : Spaces before) (isAfter : Spaces after) :
      States
        (brackets (byte '[') isEntry ++
          (before ++ (title ++ (after ++ brackets (byte ']') isEntry))))
        (.header title isEntry)
  | setting {key before after text : Text} {v : Value} (isName : IsName key)
      (isBefore : Spaces before) (isAfter : Spaces after) (denotes : Denotes text v) :
      States (key ++ (before ++ byte '=' :: (after ++ text))) (.setting key v)

/-- Behind spaces and tabs stands a comment, the end of a line or the end of the text. -/
def LineOver (t : Text) : Prop :=
  ∀ b ∈ (t.dropWhile fun b => b == 0x20 || b == 0x09).head?, b = 0x0A ∨ b = 0x0D ∨ b = byte '#'

/-- A text that holds some statements, the line over behind each. The last comment need not end. -/
inductive Written : Text → List Statement → Prop where
  | filler {gap : Text} (isFiller : Filler gap) : Written gap []
  | comment {gap words : Text} (isFiller : Filler gap) (oneLine : 0x0A ∉ words) :
      Written (gap ++ byte '#' :: words) []
  | cons {gap text more : Text} {s : Statement} {statements : List Statement}
      (isFiller : Filler gap) (states : States text s) (lineOver : LineOver more)
      (others : Written more statements) : Written (gap ++ (text ++ more)) (s :: statements)

/-- What fills a place may have more in front of it. -/
theorem Written.of_gap {gap t : Text} {statements : List Statement} (hgap : Filler gap)
    (h : Written t statements) : Written (gap ++ t) statements := by
  cases h with
  | filler isFiller => exact .filler (hgap.append isFiller)
  | comment isFiller oneLine =>
    rw [← List.append_assoc]
    exact .comment (hgap.append isFiller) oneLine
  | cons isFiller states lineOver others =>
    rw [← List.append_assoc]
    exact .cons (hgap.append isFiller) states lineOver others

/-- A line with words, done to the sections before the open one and to the open one. -/
def Statement.apply : Statement → List Section → Section → List Section × Section
  | .header title isEntry, done, current => (current :: done, { name := title, isEntry })
  | .setting key v, done, current =>
    (done, { current with values := current.values.insert key v })

/-- The document that the lines build. -/
def build : List Section → Section → List Statement → Document
  | done, current, [] => ⟨(current :: done).reverse⟩
  | done, current, s :: more => build (s.apply done current).1 (s.apply done current).2 more

end NativeBuild.Manifest
