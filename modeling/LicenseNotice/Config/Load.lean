import LicenseNotice.Failure
import LicenseNotice.Toml.Document

/-! # Loading the configuration

An explicitly named file must exist; the one of a directory may be missing, which leaves the
defaults.
-/

namespace LicenseNotice.Config

set_option autoImplicit false

variable {m : Type → Type} [Monad m] [FileReader m]

def loadFile (path : String) : Loading m Config := do
  let text ← Loading.readFile path (.configUnreadable path)
  match (Toml.parse? text).bind (ofDatum? .toml) with
  | none => throw (.configMalformed path)
  | some config =>
    match config.issue? with
    | some issue => throw (.configInvalid path issue)
    | none => return config

def loadFrom (directory : String) : Loading m Config := do
  let path := Location.join directory fileName
  if ← Loading.ask (FileReader.pathExists path) then loadFile path else return default

/-- The named file, or the one of the working directory. -/
def load (path : Option String) : Loading m Config := do
  match path with
  | some path => loadFile path
  | none => loadFrom (← Loading.ask FileReader.workingDirectory)

end LicenseNotice.Config
