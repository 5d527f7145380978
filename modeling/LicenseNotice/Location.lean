import LicenseNotice.Ordered

/-! # Paths of files

A path is a text. Joining keeps its spelling: nothing is normalised, and an absolute path replaces
what it is joined to. Only the order of found files compares paths component by component.
-/

namespace LicenseNotice.Location

set_option autoImplicit false

def isAbsolute (path : String) : Bool := path.toList.head? == some '/'

def join (base path : String) : String :=
  if isAbsolute path ∨ base.isEmpty then path
  else if base.toList.getLast? = some '/' then base ++ path
  else base ++ "/" ++ path

/-- The pieces between slashes, empty ones included. -/
def pieces (path : String) : List String :=
  (path.toList.splitOn '/').map String.ofList

/-- The components that name something: neither empty nor the directory itself. -/
def components (path : String) : List String :=
  (pieces path).filter fun piece => piece ≠ "" ∧ piece ≠ "."

/-- What stands behind the last dot of the file name, unless nothing stands before that dot. -/
def extension? (path : String) : Option String := do
  let name ← (components path).getLast?
  if name = ".." then none else
    let reversed := name.toList.reverse
    let after := reversed.takeWhile (· != '.')
    match reversed.dropWhile (· != '.') with
    | _ :: _ :: _ => some (String.ofList after.reverse)
    | _ => none

/-- The parent directory comes before every name. -/
def compareComponents (a b : String) : Ordering :=
  if a = ".." then (if b = ".." then .eq else .lt)
  else if b = ".." then .gt
  else compare a b

def comparePaths (a b : String) : Ordering :=
  List.compareLex compareComponents (components a) (components b)

def sort (paths : List String) : List String := sortBy comparePaths paths

end LicenseNotice.Location
