import LicenseNotice.NoticeKey

/-! # Resolutions

A resolution says that the artifact at an install path ships with the obligation of a notice, on
account of a library. A set of resolutions keeps discovery order and holds each triple of notice,
library and install path once.
-/

namespace LicenseNotice

set_option autoImplicit false

structure Resolution where
  notice : NoticeKey
  library : String
  installPath : String
  /-- The target installed at the path. -/
  shipped : String
  /-- The target that declares the condition. -/
  origin : String
  deriving DecidableEq, Repr

/-- What a resolution states, without its provenance. -/
structure Triple where
  notice : NoticeKey
  library : String
  installPath : String
  deriving DecidableEq, Repr

def Resolution.triple (r : Resolution) : Triple :=
  ⟨r.notice, r.library, r.installPath⟩

def Resolution.category (r : Resolution) : Category := r.notice.category

structure ResolutionSet where
  toList : List Resolution := []
  /-- The triples already taken, the latest first. -/
  seen : List Triple := []
  deriving DecidableEq, Repr

namespace ResolutionSet

def empty : ResolutionSet := {}

/-- The set with a resolution, and whether its triple was new; otherwise the set stays as it is. -/
def insert (set : ResolutionSet) (r : Resolution) : Bool × ResolutionSet :=
  if r.triple ∈ set.seen then (false, set)
  else (true, ⟨set.toList ++ [r], r.triple :: set.seen⟩)

def insertAll (set : ResolutionSet) (rs : List Resolution) : ResolutionSet :=
  rs.foldl (fun set r => (set.insert r).2) set

def ofList (rs : List Resolution) : ResolutionSet := empty.insertAll rs

def size (set : ResolutionSet) : Nat := set.toList.length

def forCategory (set : ResolutionSet) (category : Category) : List Resolution :=
  set.toList.filter (·.category = category)

end ResolutionSet

end LicenseNotice
