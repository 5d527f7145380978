import LicenseNotice.Proofs.Graph.History
import LicenseNotice.Proofs.Resolve.Stages
import LicenseNotice.Proofs.Resolve.Traversal
import LicenseNotice.Report.Text
import LicenseNotice.Section.Grouping

/-! # Graphs without conditions

The conditions of a graph decide what is reported and nothing else. Without them every stage of a
resolution goes as before, to the same failure where there is one; where there is none, nothing is
attached to anything and the report is empty.
-/

namespace LicenseNotice

set_option autoImplicit false

namespace Graph

variable {g : Graph}

/-! The stages -/

theorem mirrors_withoutConditions (g : Graph) :
    Mirrors Target.withoutConditions g g.withoutConditions where
  keeps := ⟨fun _ => rfl, fun _ => rfl, fun _ => rfl⟩
  size := List.length_map _
  get? := g.get?_withoutConditions

theorem attachments_withoutConditions (t : Target) :
    g.withoutConditions.attachments t.withoutConditions = (fun _ => []) <$> g.attachments t := by
  have hnone : ∀ found : List Target,
      (found.map Target.withoutConditions).flatMap (·.ownAttachments) = [] := fun found => by
    simp [Target.ownAttachments, Target.withoutConditions]
  rw [attachments, attachments, g.mirrors_withoutConditions.contributors]
  simp only [bind_map_left, map_bind, map_pure, hnone]
  rfl

theorem attachmentTable_withoutConditions (shipped : List Target) :
    g.withoutConditions.attachmentTable (shipped.map Target.withoutConditions) =
      List.map (fun entry => (entry.1, [])) <$> g.attachmentTable shipped := by
  rw [attachmentTable, attachmentTable, List.mapM_map]
  apply Refusal.mapM_map_result
  intro t _
  simp only [Function.comp_apply, attachments_withoutConditions, bind_map_left, map_bind, map_pure]
  rfl

/-- Nothing is reported from a table in which nothing is attached. -/
theorem resolutionsOf_eq_nil {table : List (String × List Attachment)}
    (h : ∀ entry ∈ table, entry.2 = []) (chain : Chain) : g.resolutionsOf table chain = [] := by
  have hlookup : (table.lookup chain.last.id).getD [] = [] := by
    cases hentry : table.lookup chain.last.id with
    | none => rfl
    | some attached => exact h _ (Keyed.mem_of_get? hentry)
  rw [resolutionsOf, hlookup, List.map_nil]

/-- Without conditions a resolution fails as before or finds nothing. -/
theorem resolve_withoutConditions_eq_map (g : Graph) (roots : List String) :
    g.withoutConditions.resolve roots = (fun _ => .empty) <$> g.resolve roots := by
  have hnone : ∀ (table : List (String × List Attachment)) (chains : List Chain),
      chains.flatMap (g.withoutConditions.resolutionsOf
        (table.map fun entry => (entry.1, []))) = [] := fun table chains =>
    List.flatMap_eq_nil_iff.mpr fun chain _ => resolutionsOf_eq_nil (by simp) chain
  cases roots with
  | nil => rfl
  | cons key rest =>
    have hmirrors := g.mirrors_withoutConditions
    rw [resolve_cons, resolve_cons, hmirrors.mapM_root]
    simp only [hmirrors.shipped, attachmentTable_withoutConditions, hmirrors.mapM_walk,
      bind_map_left, map_bind, map_pure, hnone]
    rfl

/-- Whatever its keys and its edges are, a graph without its conditions is otherwise the same graph;
it fails to resolve as the graph does, and gives an empty report wherever the graph gives any. -/
theorem withoutConditions_reports_nothing (g : Graph) (roots : List String) :
    g.withoutConditions.resolve roots = (g.resolve roots).map (fun _ => .empty) ∧
    g.withoutConditions.sections roots = (g.resolve roots).map (fun _ => []) ∧
    (∀ leads texts,
      (g.withoutConditions.sections roots).map (TextReport.render ⟨none, leads⟩ texts) =
        (g.resolve roots).map fun _ => "") ∧
    g.withoutConditions.outputRoot = g.outputRoot ∧
    List.Forall₂ (fun (key, t) (key', t') => key' = key ∧ t' = { t with conditions := [] })
      g.entries g.withoutConditions.entries := by
  have hresolve := resolve_withoutConditions_eq_map g roots
  have hsections : g.withoutConditions.sections roots = (g.resolve roots).map fun _ => [] := by
    rw [sections, hresolve, bind_map_left]
    exact bind_pure_comp _ _
  refine ⟨hresolve, hsections, fun leads texts => ?_, rfl, ?_⟩
  · rw [hsections]
    cases g.resolve roots <;> rfl
  · rw [withoutConditions, List.forall₂_map_right_iff, List.forall₂_same]
    exact fun _ _ => ⟨rfl, rfl⟩

/-- Everything ships as before, and nothing is said about it. -/
example : (sampleImage.resolve ["image"]).map (·.size) = .ok 3 ∧
    sampleImage.withoutConditions.resolve ["image"] = .ok .empty := ⟨rfl, rfl⟩

end Graph

end LicenseNotice
