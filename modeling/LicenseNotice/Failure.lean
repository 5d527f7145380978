import LicenseNotice.Config
import LicenseNotice.Files
import LicenseNotice.Manifest.Merge
import LicenseNotice.Resolve.Error

/-! # Failures of commands

A failure has a chain of messages, from what could not be done to why. The first message leads the
report of the failure and the others are its causes.
-/

namespace LicenseNotice

set_option autoImplicit false

inductive Markup where
  | json
  | toml
  deriving DecidableEq, Repr

def Markup.name : Markup → String
  | json => "JSON"
  | toml => "TOML"

inductive Failure where
  | manifestNotFound (path : String)
  | manifestUnreadable (path : String) (cause : FileFailure)
  | manifestEmpty (path : String)
  | manifestMalformed (path : String) (written : Markup)
  | unscannable (path directory : String) (cause : FileFailure)
  | noManifests (directory : String)
  | unmergeable (cause : MergeError)
  | configUnreadable (path : String) (cause : FileFailure)
  | configMalformed (path : String)
  | configInvalid (path : String) (cause : ConfigIssue)
  | configNotLoaded (cause : Failure)
  | unresolved (roots : List String) (cause : ResolveError)
  | textUnreadable (path : String) (cause : FileFailure)
  | outputUnwritable (path : String) (cause : FileFailure)
  | textOptionsOnly
  | noConfigAction
  deriving DecidableEq, Repr

namespace Failure

def malformed (written : Markup) : String := s!"expected {written.name} with the declared fields"

def chain : Failure → List String
  | manifestNotFound path => [s!"Graph manifest not found: {path}"]
  | manifestUnreadable path cause => [s!"Failed to read graph manifest: {path}", cause.message]
  | manifestEmpty path => [s!"Graph manifest is empty: {path}"]
  | manifestMalformed path written =>
    [s!"Failed to parse graph manifest as {written.name}: {path}", malformed written]
  | unscannable path directory cause =>
    [s!"Failed to scan {path}",
      s!"attempting to read `{directory}` resulted in an error: {cause.message}"]
  | noManifests directory => [s!"No graph manifests found under {directory}"]
  | unmergeable cause => [cause.message]
  | configUnreadable path cause => [s!"Failed to read {path}", cause.message]
  | configMalformed path => [s!"Failed to parse {path}", malformed .toml]
  | configInvalid path cause => [s!"Invalid configuration in {path}", cause.message]
  | configNotLoaded cause => "Failed to load configuration" :: cause.chain
  | unresolved roots cause =>
    ["Failed to resolve notices for " ++ ", ".intercalate roots, cause.message]
  | textUnreadable path cause =>
    [s!"Failed to read license text {path}: {cause.message}", cause.message]
  | outputUnwritable path cause => [s!"Failed to write {path}", cause.message]
  | textOptionsOnly => ["--title, --strip-prefix and --text-root only apply to text output"]
  | noConfigAction => ["Use --show or --validate"]

/-- Later lines of a message are indented to stand below its first one. -/
def indentLines (width : Nat) (message : String) : String :=
  let indent := String.ofList (List.replicate width ' ')
  ("\n" ++ indent).intercalate ((message.toList.splitOn '\n').map String.ofList)

def numberedCauses (start : Nat) : List String → List String
  | [] => []
  | cause :: rest =>
    let number := toString start
    let margin := String.ofList (List.replicate (5 - number.length) ' ')
    s!"\n{margin}{number}: {indentLines 7 cause}" :: numberedCauses (start + 1) rest

/-- The causes below the leading message. A single one has no number. -/
def causesText : List String → String
  | [] => ""
  | [cause] => s!"\n\nCaused by:\n    {indentLines 4 cause}"
  | causes => "\n\nCaused by:" ++ String.join (numberedCauses 0 causes)

def report (failure : Failure) : String :=
  match failure.chain with
  | [] => ""
  | leading :: causes => s!"Error: {leading}{causesText causes}\n"

end Failure

/-- A computation over files that keeps its warnings and may fail. -/
abbrev Loading (m : Type → Type) := ExceptT Failure (StateT (List Warning) m)

namespace Loading

variable {m : Type → Type} [Monad m]

def warn (warning : Warning) : Loading m Unit := modify (· ++ [warning])

def ofMerging {α : Type} (merging : Merging α) : Loading m α :=
  ExceptT.mk do
    let (result, warnings) := merging.run.run (← get)
    set warnings
    return result.mapError .unmergeable

def ask {α : Type} (action : m α) : Loading m α := liftM action

/-- The text of a file; `failure` says what it means that there is none. -/
def readFile [FileReader m] (path : String) (failure : FileFailure → Failure) :
    Loading m String := do
  match ← ask (FileReader.read path) with
  | .ok text => return text
  | .error cause => throw (failure cause)

def writeFile [Console m] (path text : String) (failure : FileFailure → Failure) :
    Loading m Unit := do
  match ← ask (Console.write path text) with
  | .ok () => return ()
  | .error cause => throw (failure cause)

end Loading

end LicenseNotice
