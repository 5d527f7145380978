import LicenseNotice.NoticeKey

/-! # Sections of a report

A section gathers what is reported under one notice: a block for each library, holding the install
paths the notice covers for it.
-/

namespace LicenseNotice

set_option autoImplicit false

structure LibraryBlock where
  library : String
  installs : List String
  deriving DecidableEq, Repr

structure Section where
  notice : NoticeKey
  blocks : List LibraryBlock
  deriving DecidableEq, Repr

namespace Section

def category (s : Section) : Category := s.notice.category

def libraries (s : Section) : List String := s.blocks.map (·.library)

def installCount (s : Section) : Nat := (s.blocks.flatMap (·.installs)).length

end Section

end LicenseNotice
