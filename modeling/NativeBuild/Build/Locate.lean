import NativeBuild.Project
import NativeBuild.Staging

/-!
# Locating the generator

The generator's folder holds it directly, or below folders that are named for the runtime of the
host. The second place is taken without a look whether something is there.
-/
namespace NativeBuild.Tools

/-- The file of the generator on a host. -/
def fileName (t : Tools) (host : Host) : Text :=
  if host.isWindows then t.generatorName ++ utf8 ".exe" else t.generatorName

/-- The path of the generator on a host. -/
def locate (t : Tools) (host : Host) : Job Path := do
  if t.generatorFolder = [] then
    throw (.configuration (utf8
      "generator install folder is not configured (set [tools] codegen-folder or AOTB_CODEGEN_PATH)"))
  let deployed := Path.join (Path.join t.generatorFolder (utf8 "build")) (utf8 "deploy")
  let direct := Path.join deployed (t.fileName host)
  if (← get).files.doesExist direct then return direct
  else
    let folder := Path.join (Path.join deployed host.runtimeFolder) host.runtimeName
    let other := Path.join folder (t.fileName host)
    Session.log .debug (utf8 "invoker")
      (utf8 "No generator at " ++ direct ++ utf8 ", using " ++ other)
    return other

end NativeBuild.Tools
