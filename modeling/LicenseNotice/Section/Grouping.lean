import LicenseNotice.Keyed
import LicenseNotice.Resolve
import LicenseNotice.Section

/-! # Grouping resolutions into sections

Libraries are visited in name order. Each library emits the notices it takes part in that are not
out yet: the one covering most of its installs first, then the one with the shorter marker, then by
key. Blocks inside a section go by library name; installs keep discovery order.
-/

namespace LicenseNotice

set_option autoImplicit false

namespace Grouping

/-- The libraries of each notice and the installs of each of them, all in discovery order. -/
abbrev Index := List (NoticeKey × List (String × List String))

def sortNames (names : List String) : List String := sortBy compare names

namespace Index

def add (index : Index) (r : Resolution) : Index :=
  Keyed.modify r.notice [] (Keyed.modify r.library [] (addNew r.installPath)) index

def ofResolutions (rs : List Resolution) : Index := rs.foldl add []

def blocksOf (index : Index) (notice : NoticeKey) : List (String × List String) :=
  (Keyed.get? notice index).getD []

def installsOf (index : Index) (notice : NoticeKey) (library : String) : List String :=
  (Keyed.get? library (index.blocksOf notice)).getD []

def libraries (index : Index) : List String :=
  sortNames (distinct ((Keyed.values index).flatMap Keyed.keys))

/-- The notices `library` takes part in beyond those already `out`, with its installs counted. -/
def waiting (index : Index) (out : List NoticeKey) (library : String) : List (NoticeKey × Nat) :=
  index.filterMap fun (notice, blocks) =>
    if notice ∈ out then none
    else (Keyed.get? library blocks).map fun installs => (notice, installs.length)

end Index

/-- Larger counts come first, then shorter markers, then smaller keys. -/
def comparePending (a b : NoticeKey × Nat) : Ordering :=
  (compare b.2 a.2)
    |>.then (compare a.1.marker.length b.1.marker.length)
    |>.then (compare a.1 b.1)

/-- What is out once `library` has emitted its notices. -/
def emit (index : Index) (out : List NoticeKey) (library : String) : List NoticeKey :=
  out ++ (sortBy comparePending (index.waiting out library)).map (·.1)

def order (index : Index) : List NoticeKey := index.libraries.foldl (emit index) []

def sectionFor (index : Index) (notice : NoticeKey) : Section :=
  ⟨notice, (sortNames (Keyed.keys (index.blocksOf notice))).map fun library =>
    ⟨library, index.installsOf notice library⟩⟩

end Grouping

def ResolutionSet.sections (set : ResolutionSet) : List Section :=
  let index := Grouping.Index.ofResolutions set.toList
  (Grouping.order index).map (Grouping.sectionFor index)

def Graph.sections (g : Graph) (roots : List String) : Except ResolveError (List Section) := do
  let set ← g.resolve roots
  return set.sections

end LicenseNotice
