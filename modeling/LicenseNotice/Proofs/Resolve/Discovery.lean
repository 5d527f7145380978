import LicenseNotice.Proofs.Resolve.Obligations

/-! # What each root adds to a resolution

A resolution first checks what its roots need; only that can fail. What it then lists is put
together from what is discovered below each root, and that does not depend on the other roots.
-/

namespace LicenseNotice.Graph

set_option autoImplicit false

section Definitions

variable (g : Graph)

/-- The obligations at the end of a chain, in the order in which they are attached there. -/
def discoveredAt (chain : Chain) : List Resolution :=
  ((g.attachments chain.last).toOption.getD []).map (g.resolution chain)

/-- The obligations met on a walk from one root, repetitions included. -/
def discovered (key : String) : List Resolution :=
  ((g.root key >>= g.walk).toOption.getD []).flatMap g.discoveredAt

/-- Everything about root targets that can make a resolution fail. -/
def check (targets : List Target) : Except ResolveError Unit := do
  let shipped ← g.shipped targets
  let _ ← g.attachmentTable shipped
  return ()

end Definitions

variable {g : Graph} {roots : List String} {targets shipped : List Target}
  {walks : List (List Chain)} {table : List (String × List Attachment)}

theorem discovered_eq_flatten (hroots : roots.mapM g.root = .ok targets)
    (hwalks : targets.mapM g.walk = .ok walks) :
    roots.flatMap g.discovered = walks.flatten.flatMap g.discoveredAt := by
  rw [Refusal.mapM_eq_ok] at hroots hwalks
  induction hroots generalizing walks with
  | nil =>
    cases hwalks
    rfl
  | @cons key t keys ts hroot _ ih =>
    obtain _ | @⟨_, chains, _, _, hwalk, hwalks⟩ := hwalks
    have hkey : g.discovered key = chains.flatMap g.discoveredAt :=
      congrArg (fun found => (found.toOption.getD []).flatMap g.discoveredAt)
        (Refusal.bind_eq_ok.mpr ⟨t, hroot, hwalk⟩)
    rw [List.flatMap_cons, ih hwalks, hkey, List.flatten_cons, List.flatMap_append]

/-- The table has an entry for the last target of each chain that is walked. -/
theorem flatMap_resolutionsOf (hg : g.KeyedById) (hroots : roots.mapM g.root = .ok targets)
    (hshipped : g.shipped targets = .ok shipped) (htable : g.attachmentTable shipped = .ok table)
    (hwalks : targets.mapM g.walk = .ok walks) :
    walks.flatten.flatMap (g.resolutionsOf table) = roots.flatMap g.discovered := by
  rw [discovered_eq_flatten hroots hwalks]
  refine List.flatMap_congr fun chain hchain => ?_
  obtain ⟨hroot, hischain⟩ := (mem_walks hroots hwalks).mp hchain
  obtain ⟨as, has, heq⟩ := resolutionsOf_eq hg hroots hshipped htable (hischain.ships hroot)
  rw [heq, discoveredAt, has]
  rfl

/-- A resolution of some roots is a check followed by a report that cannot fail. -/
theorem resolve_eq_check (hg : g.KeyedById) (hne : roots ≠ []) : g.resolve roots = (do
    let targets ← roots.mapM g.root
    g.check targets
    return .ofList (roots.flatMap g.discovered)) := by
  cases roots with
  | nil => exact absurd rfl hne
  | cons key rest =>
    rw [resolve_cons]
    apply Refusal.bind_congr_ok
    intro targets htargets
    simp only [check, bind_assoc, pure_bind]
    apply Refusal.bind_congr_ok
    intro shipped hshipped
    apply Refusal.bind_congr_ok
    intro table htable
    obtain ⟨walks, hwalks⟩ : ∃ walks, targets.mapM g.walk = .ok walks :=
      Refusal.exists_mapM_eq_ok.mpr fun t ht => exists_walk_of_shipped hg htargets hshipped ht
    rw [hwalks, ← flatMap_resolutionsOf hg htargets hshipped htable hwalks]
    rfl

theorem eq_ofList_of_resolve (hg : g.KeyedById) {set : ResolutionSet}
    (h : g.resolve roots = .ok set) : set = .ofList (roots.flatMap g.discovered) := by
  rw [resolve_eq_check hg (resolve_eq_ok.mp h).1] at h
  obtain ⟨_, _, h⟩ := Refusal.bind_eq_ok.mp h
  obtain ⟨_, _, h⟩ := Refusal.bind_eq_ok.mp h
  exact (Except.ok.inj h).symm

end LicenseNotice.Graph
