import NativeBuild.Text

/-!
# Reasons why a file operation is refused
-/
namespace NativeBuild

inductive FileError where
  | notFound
  | alreadyExists
  | notDirectory
  | isDirectory
  | notEmpty
  | invalidArgument
  | nameTooLong
  | tooManyLinks
  | permissionDenied
  | busy
  deriving DecidableEq, Repr

namespace FileError

def message : FileError → Text
  | .notFound => utf8 "No such file or directory"
  | .alreadyExists => utf8 "File exists"
  | .notDirectory => utf8 "Not a directory"
  | .isDirectory => utf8 "Is a directory"
  | .notEmpty => utf8 "Directory not empty"
  | .invalidArgument => utf8 "Invalid argument"
  | .nameTooLong => utf8 "File name too long"
  | .tooManyLinks => utf8 "Too many levels of symbolic links"
  | .permissionDenied => utf8 "Permission denied"
  | .busy => utf8 "Device or resource busy"

/-- The two refusals that say that nothing is there. -/
def isAbsence (e : FileError) : Bool := e == .notFound || e == .notDirectory

end FileError

end NativeBuild
