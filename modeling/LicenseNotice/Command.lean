import LicenseNotice.Arguments
import LicenseNotice.Config.Load
import LicenseNotice.FileSystem
import LicenseNotice.Json.Printer
import LicenseNotice.LicenseTexts.Load
import LicenseNotice.Manifest.Load
import LicenseNotice.Report.Json
import LicenseNotice.Report.Text

/-! # Commands

A notice command makes its whole report before the report is printed or written to a file. A
configuration command prints.
-/

namespace LicenseNotice

set_option autoImplicit false

namespace NoticeRequest

/-- The format asked for, or the configured one, or text. -/
def reportFormat (request : NoticeRequest) (config : Config) : ReportFormat :=
  request.format.getD (if config.format = some "json" then .json else .text)

def hasTextOptions (request : NoticeRequest) : Bool :=
  request.title.isSome || ! request.stripPrefixes.isEmpty || request.textRoot.isSome

/-- Options of the text report; those of the request override the configured ones. -/
def reportOptions (request : NoticeRequest) (config : Config) : ReportOptions where
  title := request.title.or config.title
  stripPrefixes :=
    if request.stripPrefixes.isEmpty then config.stripPrefix.getD [] else request.stripPrefixes

end NoticeRequest

namespace Command

section Report

variable {m : Type → Type} [Monad m] [FileReader m]

def loadTexts (root : Option String) (sections : List Section) : Loading m LicenseTexts :=
  match root with
  | none => return .empty
  | some root => LicenseTexts.load root sections

/-- The report on the requested roots of a graph. -/
def report (request : NoticeRequest) (config : Config) (graph : Graph) : Loading m String :=
  match graph.sections request.roots with
  | .error cause => throw (.unresolved request.roots cause)
  | .ok sections =>
    match request.reportFormat config with
    | .json => return JsonReport.render request.roots sections
    | .text => do
      let texts ← loadTexts (request.textRoot.or config.textRoot) sections
      return TextReport.render (request.reportOptions config) texts sections

end Report

variable {m : Type → Type} [Monad m] [Console m]

def deliver (output : Option String) (content : String) : Loading m Unit :=
  match output with
  | none => Loading.ask (Console.print content)
  | some path => Loading.writeFile path content (.outputUnwritable path)

def runNotice (configPath : Option String) (request : NoticeRequest) : Loading m Unit := do
  let config ← Config.load configPath
  if request.reportFormat config = .json ∧ request.hasTextOptions then throw .textOptionsOnly
  let graph ← Graph.load request.graph
  let content ← report request config graph
  deliver request.output content

def runConfig (quiet : Bool) (configPath : Option String) (shows validates : Bool) :
    Loading m Unit := do
  if ! shows && ! validates then throw .noConfigAction
  let loading : Loading m Config := Config.load configPath
  let config ← ExceptT.adapt .configNotLoaded loading
  if shows then Loading.ask (Console.print (Json.pretty config.toDatum ++ "\n"))
  if validates && ! quiet then Loading.ask (Console.print "Configuration is valid\n")

def run (invocation : Invocation) : Loading m Unit :=
  match invocation.command with
  | .notice request => runNotice invocation.config request
  | .config shows validates => runConfig invocation.quiet invocation.config shows validates

end Command

structure Outcome where
  exitCode : Nat
  stdout : String
  stderr : String
  deriving DecidableEq, Repr

namespace Outcome

/-- The spelling of a character in a log line. Controls that a terminal acts on are written by
number. -/
def logged (c : Char) : List Char :=
  let digits := [Json.hexDigit (c.toNat / 16), Json.hexDigit (c.toNat % 16)]
  if c ∈ ['\x07', '\x08', '\x0c', '\x1b', '\x7f'] then ['\\', 'x'] ++ digits
  else if 0x80 ≤ c.toNat ∧ c.toNat ≤ 0x9F then ['\\', 'u', '{'] ++ digits ++ ['}']
  else [c]

def warningLine (warning : Warning) : String :=
  let message := String.ofList (warning.message.toList.flatMap logged)
  s!" WARN textnotice::graph::loader: {message}\n"

/-- Warnings come before the failure and are left out by a quiet run. -/
def ofResult (quiet : Bool) (printed : String) (warnings : List Warning)
    (result : Except Failure Unit) : Outcome :=
  let warned := if quiet then "" else String.join (warnings.map warningLine)
  match result with
  | .ok () => ⟨0, printed, warned⟩
  | .error failure => ⟨1, printed, warned ++ failure.report⟩

def version : String := "textnotice 0.1.0\n"

def usage : String :=
  "Generate license notices for the artifacts of a built product\n\n" ++
  "Usage: textnotice [-v] [-q] [--config <FILE>] notice -g <GRAPH> [OPTIONS] <ROOTS>...\n" ++
  "       textnotice [-v] [-q] [--config <FILE>] config [--show] [--validate]\n"

def ofStop : Arguments.Stop → Outcome
  | .badUsage => ⟨2, "", usage⟩
  | .help => ⟨0, usage, ""⟩
  | .version => ⟨0, version, ""⟩

end Outcome

/-- What a computation comes to in a session, the warnings it leaves, and the session behind it. -/
def Session.act {α : Type} (session : Session) (warnings : List Warning)
    (x : Loading (StateM Session) α) : (Except Failure α × List Warning) × Session :=
  (x.run.run warnings).run session

namespace FileSystem

def run (fs : FileSystem) (invocation : Invocation) : Outcome × FileSystem :=
  let session : Session := { files := fs }
  let ((result, warnings), later) := session.act [] (Command.run invocation)
  (.ofResult invocation.quiet later.printed warnings result, later.files)

def runWith (fs : FileSystem) (arguments : List String) : Outcome × FileSystem :=
  match Arguments.read arguments with
  | .error stop => (.ofStop stop, fs)
  | .ok invocation => fs.run invocation

end FileSystem

end LicenseNotice
