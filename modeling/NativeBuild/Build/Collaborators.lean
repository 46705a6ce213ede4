import NativeBuild.Build.Phase
import NativeBuild.Diagnostic
import NativeBuild.Launcher
import NativeBuild.Project

/-!
# Collaborators of a build

A build asks others for what it does not know itself. Each of them answers with a value, and may
change files, print, or cancel the build while it is at it. What it answers may depend on the
files that it finds.
-/
namespace NativeBuild

/-- The answer of a collaborator, and what it did besides. -/
structure Reply (α : Type) where
  value : α
  cancels : Bool := false
  change : FileSystem → FileSystem := id
  printed : Text := []

/-- A question to a collaborator: the answer for each state of the files. -/
abbrev Query (α : Type) := FileSystem → Reply α

/-- The answer that is always the same. -/
def Query.pure {α : Type} (a : α) : Query α := fun _ => { value := a }

/-- What the stripping tool has to know of the target's platform. -/
structure Linker where
  platform : Text
  arguments : List Text := []
  deriving DecidableEq, Repr

/-- What a stripper is asked to do. -/
structure StripRequest where
  managed : Path
  level : Stripping
  target : Target
  linker : Option (Query Linker) := none
  /-- The types that are used from native code, where they are known. -/
  usedTypes : Option (Query (List Text)) := none

inductive Stripper where
  /-- Runs a tool over the managed directory; an empty tool strips nothing. -/
  | tool (tool : Path)
  | custom (strip : StripRequest → Query (Except Failure Unit))

/-- What compiles and links the generated sources. -/
structure NativeBuilder where
  /-- The directory for intermediate objects; it may be empty. -/
  cache : Query Path
  libraryName : Query Text
  /-- The arguments that make an output file with some definitions. -/
  arguments : Path → List Text → Query (List Text)
  /-- A last change to the process before it starts. -/
  setUp : ProcessSpec → Query ProcessSpec

structure Collaborators where
  stripper : Option Stripper := none
  linker : Option (Query Linker) := none
  usedTypes : Option (Query (List Text)) := none
  nativeBuilder : Option NativeBuilder := none
  /-- Types that the generator has to keep. -/
  extraTypes : Option (Query (List Text)) := none
  /-- Adds files to the directory of additional sources. -/
  moreSources : Option (Path → Query Unit) := none
  /-- Hears of each phase that is entered. -/
  progress : Option (Progress → Query Unit) := none
  /-- Takes the generator's diagnostics, which go to the log otherwise. -/
  diagnostics : Option (Diagnostic → Query Unit) := none

/-- The arguments with which the generator compiles and links. -/
def NativeLibrary.arguments (n : NativeLibrary) (output : Path) (defines : List Text) :
    List Text :=
  [utf8 "--compile-cpp", utf8 "--platform=" ++ n.platform]
    ++ (if n.architecture = [] then [] else [utf8 "--architecture=" ++ n.architecture])
    ++ [utf8 "--configuration=" ++ n.configuration,
        utf8 "--outputpath=" ++ Quoting.quote output]
    ++ (if n.cache = [] then [] else [utf8 "--cachedirectory=" ++ Quoting.quote n.cache])
    ++ (if defines = [] then []
        else [utf8 "--additional-defines=" ++ Text.join (utf8 ",") defines])

/-- The generator itself as the native builder. -/
def NativeLibrary.builder (n : NativeLibrary) : NativeBuilder where
  cache := .pure n.cache
  libraryName := .pure n.library
  arguments output defines := .pure (n.arguments output defines)
  setUp spec := .pure spec

end NativeBuild
