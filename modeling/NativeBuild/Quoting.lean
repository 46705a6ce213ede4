import NativeBuild.Path

/-!
# Quoted arguments

An argument that goes through the shell stands between double quotes, with a backslash before
each quote, dollar sign, back quote and backslash.
-/
namespace NativeBuild.Quoting

/-- The bytes that keep a meaning between double quotes. -/
def isSpecial (b : UInt8) : Bool :=
  b == byte '"' || b == byte '$' || b == 0x60 || b == byte '\\'

def escape (t : Text) : Text := t.flatMap fun b => if isSpecial b then [byte '\\', b] else [b]

def quote (t : Text) : Text := byte '"' :: escape t ++ [byte '"']

end NativeBuild.Quoting
