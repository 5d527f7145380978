import LicenseNotice.Manifest.Load
import LicenseNotice.Proofs.Codec.Target
import LicenseNotice.Proofs.Manifest.Merge

/-! # Writing a graph as a manifest

A graph is written as one manifest: its output root and its targets in order. Read back and merged
alone, that manifest is the graph again, provided that merging skips none of its targets.
-/

namespace LicenseNotice

set_option autoImplicit false

namespace Graph

variable {g : Graph} {path : String}

def toManifest (g : Graph) : Manifest := ⟨some g.outputRoot, g.targets⟩

/-- Putting the targets of a graph together again gives the graph. -/
theorem KeyedById.ofTargets_targets (hg : g.KeyedById) : ofTargets g.outputRoot g.targets = g := by
  have hentries : (g.targets.map fun t => (t.id, t)) = g.entries := by
    rw [targets, Keyed.values, List.map_map]
    refine (List.map_congr_left fun entry hentry => ?_).trans (List.map_id _)
    exact Prod.ext (hg.1 entry hentry).symm rfl
  rw [ofTargets_of_nodup g.outputRoot hg.nodup_ids, hentries]

theorem keptTargets_toManifest (kept : ∀ t ∈ g.targets, t.isKept) :
    Manifest.keptTargets [(path, g.toManifest)] = g.targets := by
  rw [Manifest.keptTargets, List.flatMap_singleton]
  exact List.filter_eq_self.mpr kept

theorem mergeable_toManifest (hg : g.KeyedById) (kept : ∀ t ∈ g.targets, t.isKept) :
    Manifest.Mergeable [(path, g.toManifest)] where
  roots := by simp [Manifest.declaredRoots, toManifest]
  ids := by
    rw [keptTargets_toManifest kept]
    exact hg.nodup_ids

theorem merge?_toManifest (hg : g.KeyedById) (kept : ∀ t ∈ g.targets, t.isKept) :
    Manifest.merge? [(path, g.toManifest)] = .ok g := by
  refine Manifest.merge?_eq_ok.mpr ⟨mergeable_toManifest hg kept, ?_⟩
  rw [keptTargets_toManifest kept]
  exact hg.ofTargets_targets.symm

theorem ofText?_toManifest (g : Graph) :
    Manifest.ofText? .json (Json.pretty g.toManifest.toDatum) = some g.toManifest := by
  rw [Manifest.ofText?, Json.parse?_pretty g.toManifest.plain_toDatum, Option.bind_some]
  exact Manifest.ofDatum?_toDatum .json g.toManifest

/-- A graph in which no id and no install name is blank is written as a manifest that loads back as
the same graph, whatever file it was written to. -/
theorem merge_written (hg : g.KeyedById)
    (kept : ∀ t ∈ g.targets, ¬ Text.isBlank t.id ∧ ¬ Text.isBlank t.installName) (path : String) :
    ∃ manifest, Manifest.ofText? .json (Json.pretty g.toManifest.toDatum) = some manifest ∧
      Manifest.merge? [(path, manifest)] = .ok g := by
  refine ⟨g.toManifest, ofText?_toManifest g, merge?_toManifest hg fun t ht => ?_⟩
  simpa [Target.isKept] using kept t ht

/-- An image whose texts need escapes or are not ASCII, with every optional field given somewhere. -/
def spelledImage : Graph :=
  ofTargets "out\\\"q\"/"
    [{ id := "im\x01age", kind := .container, installName := "sys\ttem.img", installDir := some ""
       deps := [⟨"app \"α\"", .container, some "bin/app\n"⟩, ⟨"im\x01age", .toolchain, none⟩] },
     { id := "app \"α\"", installName := " app\u00a0", package := some "\\App 😀"
       conditions := [⟨.firstParty, none, some ""⟩, ⟨.notice, some "null", none⟩] }]

theorem merge_written_spelled : spelledImage.KeyedById ∧
    (∀ t ∈ spelledImage.targets, ¬ Text.isBlank t.id ∧ ¬ Text.isBlank t.installName) ∧
    ∃ manifest, Manifest.ofText? .json (Json.pretty spelledImage.toManifest.toDatum) = some manifest ∧
      Manifest.merge? [("graph.json", manifest)] = .ok spelledImage := by
  have hkeyed : spelledImage.KeyedById := keyedById_ofTargets _ _
  have hkept : ∀ t ∈ spelledImage.targets, ¬ Text.isBlank t.id ∧ ¬ Text.isBlank t.installName := by
    decide
  exact ⟨hkeyed, hkept, merge_written hkeyed hkept "graph.json"⟩

end Graph

end LicenseNotice
