import LicenseNotice.Text.Slash
import LicenseNotice.Target

/-! # Library names

The library a condition is reported under is the first of: the library the condition names, the
package of the target that declares it, the project its license text belongs to in the source
tree, and the file name of the declaring target.
-/

namespace LicenseNotice

set_option autoImplicit false

namespace LibraryName

/-- Directories of the source tree below which the next directories name a project. -/
def sourceTrees : List String :=
  ["external/", "vendor/", "hardware/", "device/", "prebuilts/"]

/-- The directory of a license text below the first tree that leads to it. -/
def projectAmong? (trees : List String) (text : String) : Option String := do
  let path := text.toList.dropWhile Text.isSlash
  let below ← trees.findSome? fun tree => List.isPrefixOf? tree.toList path
  let dir ← Text.beforeLastSlash? below
  let project := Text.trimSlashes dir
  if project.isEmpty then none else some (String.ofList project)

/-- `external/libfoo/NOTICE` belongs to `libfoo`, `vendor/acme/libbar/LICENSE` to `acme/libbar`. -/
def projectOfText? (text : String) : Option String := projectAmong? sourceTrees text

/-- The last component of an install name, slashes at its end aside. -/
def fileName (installName : String) : String :=
  String.ofList (Text.afterLastSlash (Text.dropEnd Text.isSlash installName.toList))

end LibraryName

/-- The library that `condition`, declared on `origin`, is reported under. -/
def libraryName (origin : Target) (condition : Condition) : String :=
  (condition.library.bind Text.trimmed?
    |>.or (origin.package.bind Text.trimmed?)
    |>.or (condition.text.bind LibraryName.projectOfText?)).getD
    (LibraryName.fileName origin.installName)

end LicenseNotice
