import NativeBuild.Dictionary

/-!
# Manifest documents

A manifest is a list of sections: an unnamed first table, then the tables and the array entries in
the order of their headers. Each section keeps its settings in a dictionary. Looking a table up
gives the first of its name; looking an array up gives all its entries in order.
-/
namespace NativeBuild.Manifest

inductive Value where
  | string (t : Text)
  | integer (i : Int)
  | bool (b : Bool)
  | strings (ts : List Text)
  deriving DecidableEq, Repr

/-- The settings under one header; `isEntry` marks an array entry. -/
structure Section where
  name : Text := []
  isEntry : Bool := false
  values : Dictionary Value := []
  deriving DecidableEq, Repr

namespace Section

def string? (s : Section) (key : Text) : Option Text :=
  match s.values.get? key with
  | some (.string t) => some t
  | _ => none

def bool? (s : Section) (key : Text) : Option Bool :=
  match s.values.get? key with
  | some (.bool b) => some b
  | _ => none

def integer? (s : Section) (key : Text) : Option Int :=
  match s.values.get? key with
  | some (.integer i) => some i
  | _ => none

def strings? (s : Section) (key : Text) : Option (List Text) :=
  match s.values.get? key with
  | some (.strings ts) => some ts
  | _ => none

end Section

/-- The sections of a manifest, the unnamed table first. -/
structure Document where
  sections : List Section
  deriving DecidableEq, Repr

namespace Document

/-- The first table of a name. -/
def table? (d : Document) (name : Text) : Option Section :=
  d.sections.find? fun s => !s.isEntry && s.name == name

/-- All array entries of a name. -/
def array (d : Document) (name : Text) : List Section :=
  d.sections.filter fun s => s.isEntry && s.name == name

end Document

end NativeBuild.Manifest
