import LicenseNotice.Distinct
import LicenseNotice.Failure
import LicenseNotice.LicenseTexts
import LicenseNotice.Section.Grouping

/-! # Loading license texts

Every text that a section names is read once, relative to the text root.
-/

namespace LicenseNotice.LicenseTexts

set_option autoImplicit false

/-- The text keys of the sections, in name order and each once. -/
def keysOf (sections : List Section) : List String :=
  Grouping.sortNames (distinct (sections.filterMap (·.notice.text)))

def load {m : Type → Type} [Monad m] [FileReader m] (root : String) (sections : List Section) :
    Loading m LicenseTexts := do
  let entries ← (keysOf sections).mapM fun key => do
    let path := Location.join root key
    let text ← Loading.readFile path (.textUnreadable path)
    return (key, text)
  return .ofList entries

end LicenseNotice.LicenseTexts
