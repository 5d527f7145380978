/-! # Command-line arguments

Two levels of arguments: options of the program, then a command with its own. Options may be
written in full, by letter, with the value attached or following, and letters may be run together.
Arguments are read in order, and the first one that is wrong, or that asks for help or the version,
decides.
-/

namespace LicenseNotice

set_option autoImplicit false

namespace Arguments

inductive Stop where
  | badUsage
  | help
  | version
  deriving DecidableEq, Repr

inductive Arity where
  | stop (reason : Stop)
  /-- A flag given at most once. -/
  | flag
  /-- A flag that may be repeated. -/
  | counted
  /-- A value given at most once. -/
  | value (accepts : String → Bool)
  /-- A value that may be given repeatedly. -/
  | values (accepts : String → Bool)

structure OptionSpec where
  name : String
  letter : Option Char := none
  arity : Arity

namespace OptionSpec

def takesValue (spec : OptionSpec) : Bool :=
  match spec.arity with
  | .value _ | .values _ => true
  | .stop _ | .flag | .counted => false

end OptionSpec

structure Given where
  flags : List String := []
  values : List (String × String) := []
  positionals : List String := []
  deriving Repr

namespace Given

def addFlag (given : Given) (spec : OptionSpec) : Except Stop Given :=
  match spec.arity with
  | .stop reason => throw reason
  | .flag =>
    if spec.name ∈ given.flags then throw .badUsage
    else return { given with flags := given.flags ++ [spec.name] }
  | .counted => return { given with flags := given.flags ++ [spec.name] }
  | .value _ | .values _ => throw .badUsage

def addValue (given : Given) (spec : OptionSpec) (value : String) : Except Stop Given :=
  let added := { given with values := given.values ++ [(spec.name, value)] }
  match spec.arity with
  | .value accepts =>
    if accepts value ∧ spec.name ∉ given.values.map (·.1) then return added
    else throw .badUsage
  | .values accepts => if accepts value then return added else throw .badUsage
  | .stop _ | .flag | .counted => throw .badUsage

def addPositionals (given : Given) (values : List String) : Given :=
  { given with positionals := given.positionals ++ values }

def value? (given : Given) (name : String) : Option String := given.values.lookup name

def valuesOf (given : Given) (name : String) : List String :=
  (given.values.filter (·.1 = name)).map (·.2)

def has (given : Given) (name : String) : Bool := given.flags.contains name

end Given

/-- An argument that opens options, so that it is no value of the option before it. -/
def looksLikeOption (argument : String) : Bool :=
  argument.toList.head? = some '-' ∧ argument ≠ "-"

/-- An option written in full, without its dashes. A result with an option still wants its value. -/
def readLong (specs : List OptionSpec) (text : List Char) (given : Given) :
    Except Stop (Given × Option OptionSpec) := do
  let name := String.ofList (text.takeWhile (· != '='))
  let attached := text.dropWhile (· != '=')
  match specs.find? (·.name = name) with
  | none => throw .badUsage
  | some spec =>
    match attached with
    | [] => if spec.takesValue then return (given, some spec) else return (← given.addFlag spec, none)
    | _ :: value => return (← given.addValue spec (String.ofList value), none)

/-- Options written by letter. What follows the letter of an option with a value is the value,
without an equals sign in front. -/
def readLetters (specs : List OptionSpec) : List Char → Given →
    Except Stop (Given × Option OptionSpec)
  | [], given => return (given, none)
  | letter :: rest, given =>
    match specs.find? (·.letter = some letter) with
    | none => throw .badUsage
    | some spec =>
      if spec.takesValue then
        match rest with
        | [] => return (given, some spec)
        | '=' :: value => return (← given.addValue spec (String.ofList value), none)
        | value => return (← given.addValue spec (String.ofList value), none)
      else do
        let given ← given.addFlag spec
        readLetters specs rest given

def readOption (specs : List OptionSpec) (argument : String) (given : Given) :
    Option (Except Stop (Given × Option OptionSpec)) :=
  match argument.toList with
  | '-' :: '-' :: text => some (readLong specs text given)
  | '-' :: letter :: rest => some (readLetters specs (letter :: rest) given)
  | _ => none

/-- Reads the arguments of one level. A level without positional arguments ends before the first
one; behind two dashes everything is positional. -/
def readLevel (specs : List OptionSpec) (positional : Bool) : List String → Given →
    Except Stop (Given × List String)
  | [], given => return (given, [])
  | "--" :: rest, given =>
    if positional then return (given.addPositionals rest, [])
    else if rest.isEmpty then return (given, [])
    else throw .badUsage
  | argument :: rest, given =>
    match readOption specs argument given with
    | none =>
      if positional then readLevel specs positional rest (given.addPositionals [argument])
      else return (given, argument :: rest)
    | some reading => do
      let (given, wanting) ← reading
      match wanting, rest with
      | none, rest => readLevel specs positional rest given
      | some _, [] => throw .badUsage
      | some spec, value :: rest =>
        if looksLikeOption value then throw .badUsage
        else do
          let given ← given.addValue spec value
          readLevel specs positional rest given

end Arguments

inductive ReportFormat where
  | text
  | json
  deriving DecidableEq, Repr

namespace ReportFormat

def ofName? : String → Option ReportFormat
  | "text" => some text
  | "json" => some json
  | _ => none

end ReportFormat

structure NoticeRequest where
  roots : List String
  graph : String
  output : Option String := none
  format : Option ReportFormat := none
  title : Option String := none
  stripPrefixes : List String := []
  textRoot : Option String := none
  deriving DecidableEq, Repr

inductive Command where
  | notice (request : NoticeRequest)
  | config (shows validates : Bool)
  deriving DecidableEq, Repr

structure Invocation where
  quiet : Bool := false
  /-- The configuration file to use instead of that of the working directory. -/
  config : Option String := none
  command : Command
  deriving DecidableEq, Repr

namespace Arguments

def isPath (value : String) : Bool := ! value.isEmpty

def helpOption : OptionSpec := ⟨"help", some 'h', .stop .help⟩

/-- Options that may stand before and behind the command. -/
def globalOptions : List OptionSpec :=
  [⟨"verbose", some 'v', .counted⟩, ⟨"quiet", some 'q', .flag⟩, ⟨"config", none, .value isPath⟩]

def programOptions : List OptionSpec :=
  globalOptions ++ [helpOption, ⟨"version", some 'V', .stop .version⟩]

def noticeOptions : List OptionSpec :=
  globalOptions ++ [helpOption,
    ⟨"graph", some 'g', .value isPath⟩,
    ⟨"output", some 'o', .value isPath⟩,
    ⟨"format", some 'f', .value fun name => (ReportFormat.ofName? name).isSome⟩,
    ⟨"title", none, .value fun _ => true⟩,
    ⟨"strip-prefix", none, .values fun _ => true⟩,
    ⟨"text-root", none, .value isPath⟩]

def configOptions : List OptionSpec :=
  globalOptions ++ [helpOption, ⟨"show", none, .flag⟩, ⟨"validate", none, .flag⟩]

def noticeRequest (given : Given) : Except Stop NoticeRequest :=
  match given.value? "graph", given.positionals with
  | none, _ | _, [] => throw .badUsage
  | some graph, roots@(_ :: _) => return {
      roots, graph
      output := given.value? "output"
      format := (given.value? "format").bind ReportFormat.ofName?
      title := given.value? "title"
      stripPrefixes := given.valuesOf "strip-prefix"
      textRoot := given.value? "text-root" }

/-- The command behind the program's own options, with the options given at its level. -/
def readCommand : List String → Except Stop (Given × Command)
  | "notice" :: rest => do
    let (given, _) ← readLevel noticeOptions true rest {}
    return (given, .notice (← noticeRequest given))
  | "config" :: rest => do
    let (given, left) ← readLevel configOptions false rest {}
    if left.isEmpty then return (given, .config (given.has "show") (given.has "validate"))
    else throw .badUsage
  | ["help"] | ["help", "notice"] | ["help", "config"] | ["help", "help"] => throw .help
  | _ => throw .badUsage

/-- Of an option given at both levels the one behind the command counts. -/
def read (arguments : List String) : Except Stop Invocation := do
  let (outer, rest) ← readLevel programOptions false arguments {}
  let (inner, command) ← readCommand rest
  return {
    quiet := outer.has "quiet" || inner.has "quiet"
    config := (inner.value? "config").or (outer.value? "config")
    command }

end Arguments

end LicenseNotice
