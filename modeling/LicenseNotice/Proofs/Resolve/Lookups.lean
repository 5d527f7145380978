import LicenseNotice.Proofs.Resolve.Traversal
import LicenseNotice.Section.Grouping

/-! # A graph is read by look-ups alone

No stage of a resolution goes through the targets of a graph in the order in which they are stored.
Graphs that answer every look-up alike and hold equally many targets resolve to the same result or
the same failure, whatever their keys are.
-/

namespace LicenseNotice.Graph

set_option autoImplicit false

/-- The graphs may store their targets in different orders, but nothing else tells them apart. -/
structure LooksLike (g g' : Graph) : Prop where
  outputRoot : g.outputRoot = g'.outputRoot
  size : g.size = g'.size
  get? : g.get? = g'.get?

namespace LooksLike

variable {g g' : Graph} (h : LooksLike g g')

include h

theorem mirrors : Mirrors id g g' where
  keeps := ⟨fun _ => rfl, fun _ => rfl, fun _ => rfl⟩
  size := h.size.symm
  get? key := by rw [h.get?, Option.map_id, id]

theorem root_eq : g.root = g'.root := by
  funext key
  rw [h.mirrors.root, id_map]

theorem shipped_eq : g.shipped = g'.shipped := by
  funext targets
  have hshipped := h.mirrors.shipped targets
  rw [List.map_id_fun, id_map] at hshipped
  exact hshipped.symm

theorem attachmentTable_eq : g.attachmentTable = g'.attachmentTable := by
  have hattachments : g.attachments = g'.attachments := by
    funext t
    have hcontributors := h.mirrors.contributors t
    rw [List.map_id_fun, id_map, id] at hcontributors
    rw [attachments, attachments, hcontributors]
  funext shipped
  rw [attachmentTable, attachmentTable, hattachments]

theorem walk_eq : g.walk = g'.walk := by
  funext root
  have hwalk := h.mirrors.walk root
  rw [Chain.mapTargets_id, List.map_id_fun, id_map, id] at hwalk
  exact hwalk.symm

theorem resolutionsOf_eq : g.resolutionsOf = g'.resolutionsOf := by
  have hresolution : g.resolution = g'.resolution := by
    funext chain attachment
    rw [resolution, resolution, h.outputRoot]
  funext table chain
  rw [resolutionsOf, resolutionsOf, hresolution]

theorem resolve_eq : g.resolve = g'.resolve := by
  funext roots
  rw [resolve, resolve, h.root_eq, h.shipped_eq, h.attachmentTable_eq, h.walk_eq,
    h.resolutionsOf_eq]

theorem sections_eq : g.sections = g'.sections := by
  funext roots
  rw [sections, sections, h.resolve_eq]

end LooksLike

end LicenseNotice.Graph
