import LicenseNotice.Files
import LicenseNotice.Keyed

/-! # A file system as a value

Directories and files under the names that lead to them from the top. Paths are followed name by
name as a Unix system does: every name but the last must lead to a directory, and so must a path
that ends in a slash or a dot. Any directory may refuse to tell its names, any file to be read, and
a write may fail after it has begun.
-/

namespace LicenseNotice

set_option autoImplicit false

inductive Entry where
  /-- A directory, with a cause where its names cannot be read. -/
  | directory (refusal : Option FileFailure)
  | file (text : String)
  /-- A file that cannot be read, and why. -/
  | unreadable (cause : FileFailure)
  deriving DecidableEq, Repr

def Entry.isDirectory : Entry → Bool
  | directory _ => true
  | file _ | unreadable _ => false

/-- A file takes this many bytes, and writing more of them fails. -/
structure WriteLimit where
  bytes : Nat
  cause : FileFailure
  deriving DecidableEq, Repr

structure FileSystem where
  workingDirectory : List String
  entries : List (List String × Entry)
  limit : Option WriteLimit := none
  deriving DecidableEq, Repr

namespace FileSystem

def longestName : Nat := 255

def longestPath : Nat := 4095

/-- What stands at a place; the top is a directory. -/
def entry? (fs : FileSystem) (place : List String) : Option Entry :=
  if place.isEmpty then some (.directory none) else Keyed.get? place fs.entries

def isDirectory (fs : FileSystem) (place : List String) : Bool :=
  (fs.entry? place).any (·.isDirectory)

/-- Follows the pieces of a path from a place. -/
def follow (fs : FileSystem) : List String → List String → Except FileFailure (List String)
  | place, [] => .ok place
  | place, piece :: rest =>
    match fs.entry? place with
    | none => .error .notFound
    | some (.file _) | some (.unreadable _) => .error .notDirectory
    | some (.directory _) =>
      if piece = "" ∨ piece = "." then fs.follow place rest
      else if piece = ".." then fs.follow place.dropLast rest
      else if piece.utf8ByteSize > longestName then .error .nameTooLong
      else if (fs.entry? (place ++ [piece])).isNone then .error .notFound
      else fs.follow (place ++ [piece]) rest

/-- Where the pieces of a path start to be followed. -/
def start (fs : FileSystem) (path : String) : List String :=
  if Location.isAbsolute path then [] else fs.workingDirectory

/-- Refuses texts that are no paths. -/
def checkPath (path : String) : Except FileFailure Unit :=
  if '\x00' ∈ path.toList then .error .nulInName
  else if path.utf8ByteSize > longestPath then .error .nameTooLong
  else if path.isEmpty then .error .notFound
  else .ok ()

def locate (fs : FileSystem) (path : String) : Except FileFailure (List String) := do
  checkPath path
  fs.follow (fs.start path) (Location.pieces path)

def kind? (fs : FileSystem) (path : String) : Option FileKind :=
  match fs.locate path with
  | .error _ => none
  | .ok place =>
    match fs.entry? place with
    | none => none
    | some (.directory _) => some .directory
    | some (.file _) | some (.unreadable _) => some .file

def read (fs : FileSystem) (path : String) : Except FileFailure String := do
  let place ← fs.locate path
  match fs.entry? place with
  | none => throw .notFound
  | some (.directory _) => throw .isDirectory
  | some (.file text) => return text
  | some (.unreadable cause) => throw cause

/-- The directories from a place down whose names cannot be read, as the names that lead down to
them, with the causes. -/
def refusalsBelow (fs : FileSystem) (place : List String) : List (List String × FileFailure) :=
  fs.entries.filterMap fun (names, entry) =>
    match entry with
    | .directory (some cause) => (List.isPrefixOf? place names).map (·, cause)
    | .directory none | .file _ | .unreadable _ => none

/-- The files from a place down that no such directory hides. -/
def filesFrom (fs : FileSystem) (place : List String) : List (List String) :=
  let files := fs.entries.filterMap fun (names, entry) =>
    if entry.isDirectory then none else List.isPrefixOf? place names
  files.filter fun names => ! (fs.refusalsBelow place).any (·.1.isPrefixOf names)

def filesBelow (fs : FileSystem) (path : String) : List (List String) :=
  match fs.locate path with
  | .error _ => []
  | .ok place => if fs.isDirectory place then fs.filesFrom place else []

def unread? (fs : FileSystem) (path : String) : Option FileFailure :=
  match fs.locate path with
  | .error _ => none
  | .ok place =>
    match fs.entry? place with
    | some (.directory refusal) => refusal
    | some (.file _) | some (.unreadable _) | none => none

/-- Of the directories that cannot be read, the one that comes first by its names. -/
def unreadBelow? (fs : FileSystem) (path : String) : Option (List String × FileFailure) :=
  match fs.locate path with
  | .error _ => none
  | .ok place =>
    (sortBy (fun a b => List.compareLex compare a.1 b.1) (fs.refusalsBelow place)).head?

/-- Where writing to `path` puts its text: the directory must be there, and the last name must be a
proper one that does not lead to a directory. -/
def writePlace (fs : FileSystem) (path : String) : Except FileFailure (List String) := do
  checkPath path
  let pieces := Location.pieces path
  let trailing := pieces.reverse.takeWhile (· = "")
  match pieces.reverse.dropWhile (· = "") with
  | [] => throw .isDirectory
  | name :: front =>
    let directory ← fs.follow (fs.start path) (front.reverse ++ ["."])
    if ¬ trailing.isEmpty ∨ name = "." ∨ name = ".." then throw .isDirectory
    if name.utf8ByteSize > longestName then throw .nameTooLong
    let place := directory ++ [name]
    if fs.isDirectory place then throw .isDirectory
    return place

/-- Puts an entry at a place, instead of one that was there. -/
def put (fs : FileSystem) (place : List String) (entry : Entry) : FileSystem :=
  { fs with entries := Keyed.put place entry fs.entries }

/-- The characters in the first bytes of a text, unless the last of them is cut. -/
def firstBytes : Nat → List Char → Option (List Char)
  | 0, _ => some []
  | _, [] => some []
  | bytes, c :: rest =>
    if c.utf8Size ≤ bytes then (firstBytes (bytes - c.utf8Size) rest).map (c :: ·) else none

/-- The file with the first bytes of a text. -/
def cutOff (bytes : Nat) (text : String) : Entry :=
  match firstBytes bytes text.toList with
  | some part => .file (String.ofList part)
  | none => .unreadable .notText

/-- The file is there, and empty, before its text is put in; a limit leaves the text cut off. -/
def write (fs : FileSystem) (path text : String) : Except FileFailure Unit × FileSystem :=
  match fs.writePlace path with
  | .error cause => (.error cause, fs)
  | .ok place =>
    match fs.limit.filter (·.bytes < text.utf8ByteSize) with
    | none => (.ok (), fs.put place (.file text))
    | some limit => (.error limit.cause, fs.put place (cutOff limit.bytes text))

/-- The places on the way to `place` and `place` itself. -/
def wayTo (place : List String) : List (List String) :=
  (List.range place.length).map fun n => place.take (n + 1)

/-- Makes a directory and the missing ones above it. -/
def addDirectory (fs : FileSystem) (place : List String) : FileSystem :=
  let missing := (wayTo place).filter fun step => (fs.entry? step).isNone
  { fs with entries := fs.entries ++ missing.map (·, .directory none) }

/-- Puts a file at a place, in directories made as needed; without content its bytes are no text. -/
def addFile (fs : FileSystem) (place : List String) (content : Option String) : FileSystem :=
  (fs.addDirectory place.dropLast).put place (content.elim (.unreadable .notText) .file)

def empty (workingDirectory : List String) : FileSystem :=
  addDirectory { workingDirectory, entries := [] } workingDirectory

instance : FileReader (ReaderM FileSystem) where
  workingDirectory fs := "/" ++ "/".intercalate fs.workingDirectory
  kind? path fs := fs.kind? path
  read path fs := fs.read path
  filesBelow path fs := fs.filesBelow path
  unread? path fs := fs.unread? path
  unreadBelow? path fs := fs.unreadBelow? path

end FileSystem

/-- What a command acts on: the files, and what it has printed. -/
structure Session where
  files : FileSystem
  printed : String := ""
  deriving DecidableEq, Repr

namespace Session

/-- Looks at the files as they are now. -/
def look {α : Type} (question : ReaderM FileSystem α) : StateM Session α := do
  return question.run (← get).files

instance : Console (StateM Session) where
  workingDirectory := look FileReader.workingDirectory
  kind? path := look (FileReader.kind? path)
  read path := look (FileReader.read path)
  filesBelow path := look (FileReader.filesBelow path)
  unread? path := look (FileReader.unread? path)
  unreadBelow? path := look (FileReader.unreadBelow? path)
  write path text := modifyGet fun session =>
    let (result, files) := session.files.write path text
    (result, { session with files })
  print text := modify fun session => { session with printed := session.printed ++ text }

end Session

end LicenseNotice
