import NativeBuild.Text

/-!
# Lines in a growing text

A text that arrives in pieces is read line by line. A line ends at a line feed, and one carriage
return before it is dropped; what stands after the last line feed is held back until more
arrives. So the complete lines of a text do not depend on how it was cut into pieces.
-/
namespace NativeBuild.Lines

def lineFeed : UInt8 := 0x0A

def carriageReturn : UInt8 := 0x0D

/-- The line without the carriage return at its end. -/
def dropReturn (line : Text) : Text :=
  if line.getLast? = some carriageReturn then line.dropLast else line

/-- A line that ends in a carriage return loses that one, and no other before it. -/
@[simp] theorem dropReturn_append_return (line : Text) :
    dropReturn (line ++ [carriageReturn]) = line := by simp [dropReturn]

/-- Any other line stays as it is. -/
theorem dropReturn_of_not {line : Text} (h : line.getLast? ≠ some carriageReturn) :
    dropReturn line = line := if_neg h

/-- The texts before each line feed. -/
def closed (t : Text) : List Text := (Text.pieces (· == lineFeed) t).dropLast

/-- What stands after the last line feed. -/
def rest (t : Text) : Text := ((Text.pieces (· == lineFeed) t).getLast?).getD []

/-- The complete lines, each without its end mark. -/
def complete (t : Text) : List Text := (closed t).map dropReturn

@[simp] theorem closed_nil : closed [] = [] := rfl

@[simp] theorem rest_nil : rest [] = [] := rfl

@[simp] theorem complete_nil : complete [] = [] := rfl

/-- One chunk more, behind the text that was held back: the lines that are complete now, and what
is held back next. -/
def feed (pending chunk : Text) : List Text × Text :=
  (complete (pending ++ chunk), rest (pending ++ chunk))

/-- At the end of the text what was held back is a line as it stands, unless it is empty. -/
def flush (pending : Text) : List Text := if pending = [] then [] else [pending]

/-- All lines of a text that is read to its end. -/
def all (t : Text) : List Text := complete t ++ flush (rest t)

/-- Cuts one of the two streams of a process into lines. -/
structure Splitter where
  isError : Bool
  pending : Text := []
  deriving DecidableEq, Repr

namespace Splitter

/-- Lines that are delivered as lines of the stream. -/
def label (s : Splitter) (lines : List Text) : List (Bool × Text) := lines.map (s.isError, ·)

def feed (s : Splitter) (chunk : Text) : List (Bool × Text) × Splitter :=
  let (lines, pending) := Lines.feed s.pending chunk
  (s.label lines, { s with pending })

def flush (s : Splitter) : List (Bool × Text) := s.label (Lines.flush s.pending)

end Splitter

end NativeBuild.Lines
