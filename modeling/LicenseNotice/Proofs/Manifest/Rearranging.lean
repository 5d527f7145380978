import LicenseNotice.Proofs.Manifest.Merge
import LicenseNotice.Proofs.Resolve.Lookups

/-! # Rearranging manifests

How targets are split over manifests and in which order they are read decides nothing: the same
manifests can be merged, and the merged graphs answer every look-up alike.
-/

namespace LicenseNotice.Manifest

set_option autoImplicit false

/-- Both lists of manifests keep the same targets and declare the same output roots. -/
structure Rearranges (manifests manifests' : List (String × Manifest)) : Prop where
  kept : (keptTargets manifests).Perm (keptTargets manifests')
  roots : ∀ root, root ∈ declaredRoots manifests ↔ root ∈ declaredRoots manifests'

namespace Rearranges

variable {manifests manifests' : List (String × Manifest)} {g g' : Graph}

protected theorem symm (h : Rearranges manifests manifests') : Rearranges manifests' manifests :=
  ⟨h.kept.symm, fun root => (h.roots root).symm⟩

theorem mergeable (h : Rearranges manifests manifests') (hm : Mergeable manifests) :
    Mergeable manifests' where
  roots root hroot other hother :=
    hm.roots root ((h.roots root).mpr hroot) other ((h.roots other).mpr hother)
  ids := (h.kept.map (·.id)).nodup_iff.mp hm.ids

theorem head?_declaredRoots_eq (h : Rearranges manifests manifests') (hm : Mergeable manifests) :
    (declaredRoots manifests).head? = (declaredRoots manifests').head? := by
  ext root
  rw [hm.head?_declaredRoots, (h.mergeable hm).head?_declaredRoots, h.roots]

theorem looksLike (h : Rearranges manifests manifests') (hg : merge? manifests = .ok g)
    (hg' : merge? manifests' = .ok g') : g.LooksLike g' := by
  obtain ⟨hm, rfl⟩ := merge?_eq_ok.mp hg
  obtain ⟨hm', rfl⟩ := merge?_eq_ok.mp hg'
  have htargets := fun root => Graph.targets_ofTargets root hm.ids
  have htargets' := fun root => Graph.targets_ofTargets root hm'.ids
  refine ⟨?_, ?_, ?_⟩
  · rw [Graph.outputRoot_ofTargets _ hm.ids, Graph.outputRoot_ofTargets _ hm'.ids,
      h.head?_declaredRoots_eq hm]
  · rw [Graph.size_eq_length_targets, Graph.size_eq_length_targets, htargets, htargets',
      h.kept.length_eq]
  · refine (Graph.keyedById_ofTargets _ _).get?_eq_of_perm (Graph.keyedById_ofTargets _ _) ?_
    rw [htargets, htargets']
    exact h.kept

end Rearranges

/-- Rearranged manifests can be merged if the manifests can, and every list of roots gets the same
sections or the same failure, installs in the same order. -/
theorem sections_of_rearranged {manifests manifests' : List (String × Manifest)}
    (kept : (keptTargets manifests).Perm (keptTargets manifests'))
    (declared : ∀ root, root ∈ declaredRoots manifests ↔ root ∈ declaredRoots manifests') :
    ((∃ g, merge? manifests = .ok g) ↔ ∃ g, merge? manifests' = .ok g) ∧
    ∀ g g', merge? manifests = .ok g → merge? manifests' = .ok g' →
      ∀ roots, g.sections roots = g'.sections roots := by
  have h : Rearranges manifests manifests' := ⟨kept, declared⟩
  refine ⟨?_, fun g g' hg hg' roots => congrFun (h.looksLike hg hg').sections_eq roots⟩
  constructor
  · rintro ⟨g, hg⟩
    exact ⟨_, merge?_eq_ok.mpr ⟨h.mergeable (merge?_eq_ok.mp hg).1, rfl⟩⟩
  · rintro ⟨g, hg⟩
    exact ⟨_, merge?_eq_ok.mpr ⟨h.symm.mergeable (merge?_eq_ok.mp hg).1, rfl⟩⟩

/-- A build in one manifest. -/
def wholeBuild : List (String × Manifest) :=
  [("build.toml", ⟨some "out",
    [{ id := "app", installName := "app", deps := [⟨"lib", .static, none⟩] },
     { id := "lib", installName := "lib.a", conditions := [⟨.notice, none, none⟩] }]⟩)]

/-- The same build in two manifests, with a target that is skipped. -/
def splitBuild : List (String × Manifest) :=
  [("lib.toml", ⟨none,
    [{ id := "lib", installName := "lib.a", conditions := [⟨.notice, none, none⟩] },
     { id := "lib", installName := " " }]⟩),
   ("app.toml", ⟨some "out",
    [{ id := "app", installName := "app", deps := [⟨"lib", .static, none⟩] }]⟩)]

theorem sections_of_rearranged_build : (keptTargets wholeBuild).Perm (keptTargets splitBuild) ∧
    (∀ root, root ∈ declaredRoots wholeBuild ↔ root ∈ declaredRoots splitBuild) ∧
    ∃ g g', merge? wholeBuild = .ok g ∧ merge? splitBuild = .ok g' ∧ g ≠ g' ∧
      g.sections ["app"] = g'.sections ["app"] ∧
      ∃ notice block, g.sections ["app"] = .ok [⟨notice, [block]⟩] := by
  have kept : (keptTargets wholeBuild).Perm (keptTargets splitBuild) := by decide
  have declared : ∀ root, root ∈ declaredRoots wholeBuild ↔ root ∈ declaredRoots splitBuild :=
    fun _ => Iff.rfl
  exact ⟨kept, declared, _, _, rfl, rfl, by decide,
    (sections_of_rearranged kept declared).2 _ _ rfl rfl ["app"], _, _, rfl⟩

end LicenseNotice.Manifest
