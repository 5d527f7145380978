import LicenseNotice.Codec.Section
import LicenseNotice.Json.Printer

/-! # The JSON report

The roots as they were asked for and the sections, in the pretty layout, without a final line feed.
-/

namespace LicenseNotice

set_option autoImplicit false

namespace JsonReport

def toDatum (roots : List String) (sections : List Section) : Datum :=
  .record [("roots", .list (roots.map .text)), ("sections", .list (sections.map (·.toDatum)))]

def render (roots : List String) (sections : List Section) : String :=
  Json.pretty (toDatum roots sections)

end JsonReport

end LicenseNotice
