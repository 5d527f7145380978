import LicenseNotice.Keyed
import LicenseNotice.Section

/-! # License texts

The bodies of license texts, under the source paths that conditions name.
-/

namespace LicenseNotice

set_option autoImplicit false

structure LicenseTexts where
  entries : List (String × String) := []
  deriving DecidableEq, Repr

namespace LicenseTexts

def empty : LicenseTexts := {}

def insert (texts : LicenseTexts) (key text : String) : LicenseTexts :=
  ⟨Keyed.put key text texts.entries⟩

def ofList (entries : List (String × String)) : LicenseTexts :=
  ⟨Keyed.ofList entries⟩

def get? (texts : LicenseTexts) (notice : NoticeKey) : Option String :=
  notice.text.bind fun key => Keyed.get? key texts.entries

def size (texts : LicenseTexts) : Nat := texts.entries.length

end LicenseTexts

end LicenseNotice
