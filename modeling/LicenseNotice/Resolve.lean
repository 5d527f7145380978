import LicenseNotice.LibraryName
import LicenseNotice.Resolution
import LicenseNotice.Resolve.Attachment
import LicenseNotice.Resolve.Shipped
import LicenseNotice.Resolve.Walk

/-! # Resolution

From root targets to the obligations at their install paths: what ships is listed, each shipped
target gets its attached conditions, and every chain of the walks from the roots reports the
conditions attached to its last target.
-/

namespace LicenseNotice

set_option autoImplicit false

namespace Graph

/-- The attachments of each shipped target, under its id. -/
def attachmentTable (g : Graph) (shipped : List Target) :
    Except ResolveError (List (String × List Attachment)) :=
  shipped.mapM fun t => return (t.id, ← g.attachments t)

/-- The obligation of `attachment` where the last target of `chain` is installed. -/
def resolution (g : Graph) (chain : Chain) (attachment : Attachment) : Resolution where
  notice := attachment.condition.noticeKey
  library := libraryName attachment.origin attachment.condition
  installPath := InstallPath.ofChain g.outputRoot chain
  shipped := chain.last.id
  origin := attachment.origin.id

def resolutionsOf (g : Graph) (table : List (String × List Attachment)) (chain : Chain) :
    List Resolution :=
  ((table.lookup chain.last.id).getD []).map (g.resolution chain)

/-- Every obligation reachable from the roots, in discovery order. -/
def resolve (g : Graph) (roots : List String) : Except ResolveError ResolutionSet := do
  if roots.isEmpty then throw .noRoots
  let rootTargets ← roots.mapM g.root
  let shipped ← g.shipped rootTargets
  let table ← g.attachmentTable shipped
  let walks ← rootTargets.mapM g.walk
  return .ofList (walks.flatten.flatMap (g.resolutionsOf table))

end Graph

end LicenseNotice
