import LicenseNotice.Ordered
import LicenseNotice.Target

/-! # Notice keys

A notice is identified by its category and the license text it points at. Keys are ordered by
category rank, then no text before any text, then the text character by character.
-/

namespace LicenseNotice

set_option autoImplicit false

structure NoticeKey where
  category : Category
  text : Option String := none
  deriving DecidableEq, Repr

namespace NoticeKey

def marker (key : NoticeKey) : String := key.category.marker

def compareText : Option String → Option String → Ordering
  | none, none => .eq
  | none, some _ => .lt
  | some _, none => .gt
  | some a, some b => compare a b

instance : Ord NoticeKey where
  compare a b :=
    (compare a.category.rank b.category.rank).then (compareText a.text b.text)

def sort (keys : List NoticeKey) : List NoticeKey := sortBy compare keys

end NoticeKey

def Condition.noticeKey (condition : Condition) : NoticeKey :=
  ⟨condition.category, condition.text⟩

end LicenseNotice
