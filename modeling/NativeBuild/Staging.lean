import NativeBuild.Checksum
import NativeBuild.Failure
import NativeBuild.Lines
import NativeBuild.Session

/-!
# Build directories

A build has a temporary directory, a cache and a staging area, each with named directories inside.
The operations here work on them and report the path that they failed at. The cache remembers
the arguments of its last build by a stamp.
-/
namespace NativeBuild

/-- Steps that may end a build. -/
abbrev Job := ExceptT Failure SessionM

namespace Staging

/-- Where the generated sources are, in the temporary directory and in the cache. -/
def generated (here dir : Path) : Path :=
  Path.join (Path.absoluteNormal here dir) (utf8 "il2cppOutput")

/-- Where the additional sources are, in the cache. -/
def additional (here dir : Path) : Path :=
  Path.join (Path.absoluteNormal here dir) (utf8 "additionalCppFiles")

/-- Where the native library is, in the cache and in the staging area. -/
def native (dir : Path) : Path := Path.join dir (utf8 "Native")

/-- Where the managed assemblies are, in the staging area. -/
def managed (here staging : Path) : Path := Path.absoluteNormalIn here staging (utf8 "Managed")

def metadataFolder (generated : Path) : Path :=
  Path.join (Path.join generated (utf8 "Data")) (utf8 "Metadata")

def resourcesFolder (generated : Path) : Path :=
  Path.join (Path.join generated (utf8 "Data")) (utf8 "Resources")

def metadataEnding : Text := utf8 "-metadata.dat"

def resourcesEnding : Text := utf8 "-resources.dat"

def symbolMap : Text := utf8 "SymbolMap"

def diagnosticsFile : Text := utf8 "Il2CppToEditorData.json"

def extraTypesFile : Text := utf8 "extra-types.txt"

def stampFile : Text := utf8 "args.stamp"

/-- Acts on the files; a refusal is a failure at `p`, with what was tried in front of it. -/
def attempt {α : Type} (tried : String) (p : Path) (action : FileAction α) : Job α := do
  match ← (Session.act action : SessionM _) with
  | .ok a => return a
  | .error e => throw (.files (utf8 tried ++ utf8 ": " ++ e.message) p)

/-- Makes a directory and its ancestors, as far as they are missing. -/
def ensureDirectory (p : Path) : Job Unit :=
  attempt "cannot create directory" p (FileAction.makeDirectories p)

/-- Visits the files of a directory in turn. An entry that leads nowhere is passed over; `left` is
the reason, and it counts in the end if no other entry follows. -/
def visit (dir : Path) (act : Text → Job Unit) (left : Option FileError) :
    List Text → Job (Option FileError)
  | [] => return left
  | name :: rest => do
    match (← get).files.status (Path.join dir name) with
    | .ok (_, .file _ _) =>
      act name
      visit dir act none rest
    | .ok _ => visit dir act none rest
    | .error e => visit dir act (some e) rest

/-- Acts on each file directly in a directory. -/
def forFiles (dir : Path) (act : Text → Job Unit) : Job Unit := do
  let names ← attempt "cannot list directory" dir (FileAction.ask (·.list dir))
  match ← visit dir act none names with
  | none => return ()
  | some e => throw (.files (utf8 "cannot list directory: " ++ e.message) dir)

/-- Makes the files directly in a directory writable, if the directory is there. -/
def allowWriting (dir : Path) : Job Unit := do
  if (← get).files.isDirectory dir then
    forFiles dir fun name =>
      let p := Path.join dir name
      attempt "cannot make writable" p (FileAction.allowWriting p)

/-- Makes a directory that is empty: what was there before is removed. -/
def recreate (dir : Path) : Job Unit := do
  if (← get).files.doesExist dir then
    allowWriting dir
    attempt "cannot delete directory" dir (FileAction.removeAll dir)
  ensureDirectory dir

/-- Copies a directory with all below it. Files that are there already are replaced if `overwrite`
is set, and kept otherwise. -/
def copyTree (source target : Path) (overwrite : Bool) : Job Unit := do
  if (← get).files.isDirectory source then
    ensureDirectory target
    match ← (Session.act (FileAction.copy source target overwrite) : SessionM _) with
    | .ok () =>
      Session.log .debug (utf8 "staging") (utf8 "Copied " ++ source ++ utf8 " -> " ++ target)
    | .error e =>
      throw (.files (utf8 "copy to " ++ target ++ utf8 " failed: " ++ e.message) source)
  else throw (.files (utf8 "source directory missing") source)

/-- Copies the files directly in a directory whose names end in `ending`. -/
def copyMatching (source target : Path) (ending : Text) : Job Unit := do
  if (← get).files.isDirectory source then
    ensureDirectory target
    forFiles source fun name =>
      if ending.isSuffixOf name then
        attempt "copy failed" (Path.join source name)
          (FileAction.copyFile (Path.join source name) (Path.join target name) true)
      else return ()
  else throw (.files (utf8 "generated data directory missing") source)

/-- Copies the metadata files among the generated sources. -/
def copyMetadata (dir target : Path) : Job Unit := do
  copyMatching (metadataFolder (generated (← get).here dir)) target metadataEnding

/-- Copies the resource files among the generated sources. -/
def copyResources (dir target : Path) : Job Unit := do
  copyMatching (resourcesFolder (generated (← get).here dir)) target resourcesEnding

/-- Copies the symbol map of a directory, if there is one, under a name with `ending`. -/
def copySymbolMap (dir target : Path) (ending : Text) : Job Unit := do
  let file := Path.join dir symbolMap
  if (← get).files.doesExist file then
    ensureDirectory target
    attempt "copy failed" file
      (FileAction.copyFile file (Path.join target (symbolMap ++ ending)) true)

/-- The stamp that a cache keeps: the first line of its stamp file. -/
def lastStamp (fs : FileSystem) (cache : Path) : Text :=
  match fs.read (Path.join cache stampFile) with
  | .ok content => content.takeWhile (· != Lines.lineFeed)
  | .error _ => []

/-- Stamps a cache with a command line; tells whether the stamp changed. -/
def stamp (cache : Path) (commandLine : Text) : Job Bool := do
  let file := Path.join cache stampFile
  let stamp := Checksum.stamp commandLine
  let last := lastStamp (← get).files cache
  if last = stamp then return false
  else
    match ← (Session.act (FileAction.write file (stamp ++ utf8 "\n")) : SessionM _) with
    | .error _ => throw (.files (utf8 "cannot write argument stamp") file)
    | .ok _ =>
      Session.log .debug (utf8 "staging")
        (if last = [] then utf8 "Recorded generator argument stamp " ++ stamp
        else utf8 "Generator arguments changed (stamp " ++ last ++ utf8 " -> " ++ stamp ++ utf8 ")")
      return true

end Staging

end NativeBuild
