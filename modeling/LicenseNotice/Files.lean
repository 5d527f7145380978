import LicenseNotice.Location

/-! # Files as a program sees them

Commands read and write files through a small interface, so that they run over a modelled file
system as well as over a real one. A failed access has a cause with the wording of the operating
system.
-/

namespace LicenseNotice

set_option autoImplicit false

inductive FileKind where
  | file
  | directory
  | other
  deriving DecidableEq, Repr

inductive FileFailure where
  | notFound
  | notDirectory
  | isDirectory
  | nameTooLong
  | nulInName
  | notText
  | other (message : String)
  deriving DecidableEq, Repr

def FileFailure.message : FileFailure → String
  | notFound => "No such file or directory (os error 2)"
  | notDirectory => "Not a directory (os error 20)"
  | isDirectory => "Is a directory (os error 21)"
  | nameTooLong => "File name too long (os error 36)"
  | nulInName => "file name contained an unexpected NUL byte"
  | notText => "stream did not contain valid UTF-8"
  | other message => message

class FileReader (m : Type → Type) where
  workingDirectory : m String
  /-- What a path leads to, if it leads anywhere. -/
  kind? : String → m (Option FileKind)
  read : String → m (Except FileFailure String)
  /-- The regular files below a directory, each as the names that lead down to it, as far as the
  directories on the way can be read. -/
  filesBelow : String → m (List (List String))
  /-- Why the names in a directory cannot be read. -/
  unread? : String → m (Option FileFailure)
  /-- The first directory from the given one down whose names cannot be read, and why. -/
  unreadBelow? : String → m (Option (List String × FileFailure))

/-- Files that can also be written, and a place to print. -/
class Console (m : Type → Type) extends FileReader m where
  write : String → String → m (Except FileFailure Unit)
  print : String → m Unit

namespace FileReader

variable {m : Type → Type} [Monad m] [FileReader m]

def pathExists (path : String) : m Bool := do
  return (← kind? path).isSome

def isDirectory (path : String) : m Bool := do
  return (← kind? path) = some .directory

end FileReader

end LicenseNotice
