import LicenseNotice.Text.Blank

/-! # Texts with slashes

Source paths, install locations and library names derived from them are plain texts in which `/`
separates components. Nothing here touches files.
-/

namespace LicenseNotice.Text

set_option autoImplicit false

def isSlash (c : Char) : Bool := c == '/'

def trimSlashes (cs : List Char) : List Char := trimBy isSlash cs

/-- What stands after the last slash; all of a text without one. -/
def afterLastSlash (cs : List Char) : List Char :=
  (cs.reverse.takeWhile (! isSlash ·)).reverse

/-- What stands before the last slash, if there is one. -/
def beforeLastSlash? (cs : List Char) : Option (List Char) :=
  match cs.reverse.dropWhile (! isSlash ·) with
  | [] => none
  | _ :: front => some front.reverse

/-- The non-empty pieces between slashes. -/
def components (cs : List Char) : List (List Char) :=
  (cs.splitOn '/').filter (! ·.isEmpty)

end LicenseNotice.Text
