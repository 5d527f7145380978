import LicenseNotice.Proofs.Resolve.Stages

/-! # Soundness and completeness of resolution

`Obliges` says without any traversal which conditions surface where: a chain of containers leads
from a root to a target, and the condition is declared on a contributor of that target. The
resolutions of a graph are exactly these, each triple once.
-/

namespace LicenseNotice.Graph

set_option autoImplicit false

/-- `condition`, declared on `origin`, is an obligation where the last target of `chain` is
installed. -/
structure Obliges (g : Graph) (roots : List String) (chain : Chain) (origin : Target)
    (condition : Condition) : Prop where
  root : ∃ key ∈ roots, g.get? key = some chain.root
  walked : g.IsChain chain
  contributes : g.Contributes chain.last origin
  declared : condition ∈ origin.conditions

variable {g : Graph} {roots : List String} {targets shipped : List Target} {chain : Chain}
  {walks : List (List Chain)} {table : List (String × List Attachment)} {set : ResolutionSet}
  {r : Resolution}

theorem IsChain.ships (hroot : ∃ key ∈ roots, g.get? key = some chain.root)
    (h : g.IsChain chain) : g.Ships roots chain.last := by
  obtain ⟨key, hkey, hget⟩ := hroot
  exact ⟨key, hkey, chain.root, hget, h.1.reaches⟩

theorem mem_walks (hroots : roots.mapM g.root = .ok targets)
    (hwalks : targets.mapM g.walk = .ok walks) :
    chain ∈ walks.flatten ↔ (∃ key ∈ roots, g.get? key = some chain.root) ∧ g.IsChain chain := by
  rw [Refusal.mem_flatten_of_mapM_eq_ok hwalks fun _ _ _ hwalk _ => mem_walk hwalk,
    ← mem_roots hroots]
  constructor
  · rintro ⟨_, hroot, rfl, hischain⟩
    exact ⟨hroot, hischain⟩
  · rintro ⟨hroot, hischain⟩
    exact ⟨chain.root, hroot, rfl, hischain⟩

theorem resolutionsOf_eq_of_sole (hroots : roots.mapM g.root = .ok targets)
    (hshipped : g.shipped targets = .ok shipped) (htable : g.attachmentTable shipped = .ok table)
    (hlast : chain.last ∈ shipped) (hsole : g.SoleOfId roots chain.last) :
    ∃ as, g.attachments chain.last = .ok as ∧
      g.resolutionsOf table chain = as.map (g.resolution chain) := by
  obtain ⟨as, has, hlookup⟩ := lookup_attachmentTable htable hlast
    fun u hu => hsole u (edgePassed_of_shipped hroots hshipped hu).1
  exact ⟨as, has, by rw [resolutionsOf, hlookup, Option.getD_some]⟩

theorem resolutionsOf_eq (hg : g.KeyedById) (hroots : roots.mapM g.root = .ok targets)
    (hshipped : g.shipped targets = .ok shipped) (htable : g.attachmentTable shipped = .ok table)
    (hlast : g.Ships roots chain.last) : ∃ as, g.attachments chain.last = .ok as ∧
      g.resolutionsOf table chain = as.map (g.resolution chain) :=
  resolutionsOf_eq_of_sole hroots hshipped htable ((mem_shipped hroots hshipped hg).mpr hlast)
    (hg.soleOfId hlast)

/-- What the walks discover, repetitions included, is what the roots oblige to. -/
theorem mem_discovered (hg : g.KeyedById) (hroots : roots.mapM g.root = .ok targets)
    (hshipped : g.shipped targets = .ok shipped) (htable : g.attachmentTable shipped = .ok table)
    (hwalks : targets.mapM g.walk = .ok walks) :
    r ∈ walks.flatten.flatMap (g.resolutionsOf table) ↔
      ∃ chain origin condition, g.Obliges roots chain origin condition ∧
        r = g.resolution chain ⟨origin, condition⟩ := by
  rw [List.mem_flatMap]
  constructor
  · rintro ⟨chain, hchain, hr⟩
    obtain ⟨hroot, hischain⟩ := (mem_walks hroots hwalks).mp hchain
    have hlast := hischain.ships hroot
    obtain ⟨as, has, heq⟩ := resolutionsOf_eq hg hroots hshipped htable hlast
    rw [heq] at hr
    obtain ⟨⟨origin, condition⟩, ha, rfl⟩ := List.mem_map.mp hr
    obtain ⟨hcontributes, hdeclared⟩ := (mem_attachments hg hlast.mem_targets has _).mp ha
    exact ⟨chain, origin, condition, ⟨hroot, hischain, hcontributes, hdeclared⟩, rfl⟩
  · rintro ⟨chain, origin, condition, ⟨hroot, hischain, hcontributes, hdeclared⟩, rfl⟩
    have hlast := hischain.ships hroot
    obtain ⟨as, has, heq⟩ := resolutionsOf_eq hg hroots hshipped htable hlast
    refine ⟨chain, (mem_walks hroots hwalks).mpr ⟨hroot, hischain⟩, ?_⟩
    rw [heq]
    exact List.mem_map_of_mem
      ((mem_attachments hg hlast.mem_targets has ⟨origin, condition⟩).mpr ⟨hcontributes, hdeclared⟩)

/-- Resolution reports what the roots oblige to, nothing else, and no triple twice. -/
theorem resolve_iff_obliges (hg : g.KeyedById) (h : g.resolve roots = .ok set) :
    (∀ triple : Triple, (∃ r ∈ set.toList, r.triple = triple) ↔
      ∃ chain origin condition, g.Obliges roots chain origin condition ∧
        triple = ⟨condition.noticeKey, libraryName origin condition,
          InstallPath.ofChain g.outputRoot chain⟩) ∧
    (∀ r ∈ set.toList, ∃ chain origin condition, g.Obliges roots chain origin condition ∧
      r = ⟨condition.noticeKey, libraryName origin condition,
        InstallPath.ofChain g.outputRoot chain, chain.last.id, origin.id⟩) ∧
    (set.toList.map (·.triple)).Nodup := by
  obtain ⟨_, targets, shipped, table, walks, hroots, hshipped, htable, hwalks, rfl⟩ :=
    resolve_eq_ok.mp h
  have hsound : ∀ r ∈ (ResolutionSet.ofList (walks.flatten.flatMap (g.resolutionsOf table))).toList,
      ∃ chain origin condition, g.Obliges roots chain origin condition ∧
        r = g.resolution chain ⟨origin, condition⟩ := fun r hr =>
    (mem_discovered hg hroots hshipped htable hwalks).mp (ResolutionSet.mem_of_mem_ofList hr)
  refine ⟨fun triple => ⟨?_, ?_⟩, hsound, ResolutionSet.nodup_triples _⟩
  · rintro ⟨r, hr, rfl⟩
    obtain ⟨chain, origin, condition, hobliges, rfl⟩ := hsound r hr
    exact ⟨chain, origin, condition, hobliges, rfl⟩
  · rintro ⟨chain, origin, condition, hobliges, rfl⟩
    have hr := (mem_discovered hg hroots hshipped htable hwalks).mpr
      ⟨chain, origin, condition, hobliges, rfl⟩
    exact ResolutionSet.exists_triple_of_mem hr

theorem resolve_iff_obliges_image : sampleImage.KeyedById ∧
    ∃ set, sampleImage.resolve ["image"] = .ok set ∧ set.size = 3 ∧
      ∀ triple : Triple, (∃ r ∈ set.toList, r.triple = triple) ↔
        ∃ chain origin condition, sampleImage.Obliges ["image"] chain origin condition ∧
          triple = ⟨condition.noticeKey, libraryName origin condition,
            InstallPath.ofChain "out" chain⟩ :=
  ⟨sampleImage_keyedById, _, rfl, rfl, (resolve_iff_obliges sampleImage_keyedById rfl).1⟩

end LicenseNotice.Graph
