import LicenseNotice.Command

/-! # The program

Runs the command line over the real file system.
-/

namespace LicenseNotice

set_option autoImplicit false

namespace Program

/-- The code the operating system gave for an error. -/
def osCode : IO.Error → Option UInt32
  | .alreadyExists _ code _ | .otherError code _ | .resourceBusy code _
  | .resourceVanished code _ | .unsupportedOperation code _ | .hardwareFault code _
  | .unsatisfiedConstraints code _ | .illegalOperation code _ | .protocolError code _
  | .timeExpired code _ | .interrupted _ code _ | .noFileOrDirectory _ code _
  | .invalidArgument _ code _ | .permissionDenied _ code _ | .resourceExhausted _ code _
  | .inappropriateType _ code _ | .noSuchThing _ code _ => some code
  | .unexpectedEof | .userError _ => none

/-- Some accesses give the code with its sign turned. -/
def unsigned (code : UInt32) : Nat := min code.toNat (0 - code).toNat

def fileFailure (error : IO.Error) : FileFailure :=
  match (osCode error).map unsigned with
  | some 2 => .notFound
  | some 20 => .notDirectory
  | some 21 => .isDirectory
  | some 36 => .nameTooLong
  | some 13 => .other "Permission denied (os error 13)"
  | _ => .other (toString error)

def holdsNul (path : String) : Bool := path.toList.contains '\x00'

def kind? (path : String) : IO (Option FileKind) := do
  if holdsNul path then return none
  try
    match (← (System.mkFilePath [path]).metadata).type with
    | .dir => return some .directory
    | .file => return some .file
    | _ => return some .other
  catch _ => return none

def readText (path : String) : IO (Except FileFailure String) := do
  if holdsNul path then return .error .nulInName
  if (← kind? path) = some .directory then return .error .isDirectory
  try
    let bytes ← IO.FS.readBinFile (System.mkFilePath [path])
    match String.fromUTF8? bytes with
    | some text => return .ok text
    | none => return .error .notText
  catch error => return .error (fileFailure error)

/-- The names in a directory, in order. -/
def namesIn (path : String) : IO (Except FileFailure (List String)) := do
  try
    let entries ← (System.mkFilePath [path]).readDir
    return .ok (sortBy compare (entries.toList.map (·.fileName)))
  catch error => return .error (fileFailure error)

partial def filesBelow (path : String) : IO (List (List String)) := do
  match ← namesIn path with
  | .error _ => return []
  | .ok names =>
    let found ← names.mapM fun name => do
      let inner := Location.join path name
      match ← kind? inner with
      | some .directory => return (← filesBelow inner).map (name :: ·)
      | some .file => return [[name]]
      | some .other | none => return []
    return found.flatten

def unread? (path : String) : IO (Option FileFailure) := do
  if (← kind? path) ≠ some .directory then return none
  match ← namesIn path with
  | .error cause => return some cause
  | .ok _ => return none

partial def unreadBelow? (path : String) : IO (Option (List String × FileFailure)) := do
  match ← namesIn path with
  | .error cause => return some ([], cause)
  | .ok names =>
    for name in names do
      let inner := Location.join path name
      if (← kind? inner) = some .directory then
        if let some (below, cause) ← unreadBelow? inner then
          return some (name :: below, cause)
    return none

def writeText (path text : String) : IO (Except FileFailure Unit) := do
  if holdsNul path then return .error .nulInName
  try
    IO.FS.writeFile (System.mkFilePath [path]) text
    return .ok ()
  catch error => return .error (fileFailure error)

instance : Console IO where
  workingDirectory := do
    try return (← IO.currentDir).toString catch _ => return "."
  kind? := kind?
  read := readText
  filesBelow := filesBelow
  unread? := unread?
  unreadBelow? := unreadBelow?
  write := writeText
  print := IO.print

/-- What is left to be printed behind a command, and its exit code. -/
def run (invocation : Invocation) : IO Outcome := do
  let acting : Loading IO Unit := Command.run invocation
  let (result, warnings) ← acting.run.run []
  return .ofResult invocation.quiet "" warnings result

end Program

end LicenseNotice

def main (arguments : List String) : IO UInt32 := do
  let outcome ←
    match LicenseNotice.Arguments.read arguments with
    | .error stop => pure (LicenseNotice.Outcome.ofStop stop)
    | .ok invocation => LicenseNotice.Program.run invocation
  IO.print outcome.stdout
  IO.eprint outcome.stderr
  return UInt32.ofNat outcome.exitCode
