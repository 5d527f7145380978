import LicenseNotice.Proofs.Resolve.Obligations

/-! # Targets that share an id

Look-ups go by key, and what has been met is remembered by id. Where the keys of a graph are not the
ids of its targets, two targets can share an id, and then only the one met first is searched. A chain
whose targets are the only ones of their ids is reported in full, whatever the keys are; without that
a resolution can succeed and leave out what a chain leads to.
-/

namespace LicenseNotice.Graph

set_option autoImplicit false

variable {g : Graph} {roots : List String} {targets shipped : List Target} {chain : Chain}
  {t root : Target} {set : ResolutionSet}

theorem mem_shipped_of_descends (hroots : roots.mapM g.root = .ok targets)
    (hshipped : g.shipped targets = .ok shipped) {steps : List Step}
    (hdescends : g.Descends root steps) (hroot : root ∈ shipped)
    (hsole : ∀ step ∈ steps, g.SoleOfId roots step.member) :
    ∀ t ∈ (Chain.mk root steps).targets, t ∈ shipped := by
  induction steps generalizing root with
  | nil =>
    intro t ht
    exact List.mem_singleton.mp ht ▸ hroot
  | cons step rest ih =>
    obtain ⟨hedge, hget, hrest⟩ := hdescends
    obtain ⟨hdeps, hl⟩ := Target.mem_memberEdges.mp hedge
    obtain ⟨hstep, hsteps⟩ := List.forall_mem_cons.mp hsole
    have hlink : g.Links [.container] root step.member := ⟨step.edge, hdeps, by simp [hl], hget⟩
    have hmember := member_mem_shipped hroots hshipped hlink hroot hstep
    exact List.forall_mem_cons.mpr ⟨hroot, ih hrest hmember hsteps⟩

/-- Of a chain that no other target of the same id competes with, the edges were checked and the
conditions of its last target are reported at its install path. -/
theorem resolve_reports_chain (h : g.resolve roots = .ok set)
    (hroot : ∃ key ∈ roots, g.get? key = some chain.root) (hchain : g.IsChain chain)
    (hsole : ∀ t ∈ chain.targets, g.SoleOfId roots t) :
    g.EdgesFound chain.last ∧ chain.last.WellPlaced ∧ ∀ condition ∈ chain.last.conditions,
      ∃ r ∈ set.toList, r.triple = ⟨condition.noticeKey, libraryName chain.last condition,
        InstallPath.ofChain g.outputRoot chain⟩ := by
  obtain ⟨-, targets, shipped, table, walks, hroots, hshipped, htable, hwalks, rfl⟩ :=
    resolve_eq_ok.mp h
  obtain ⟨key, hkey, hget⟩ := hroot
  obtain ⟨hfirst, hsteps⟩ := List.forall_mem_cons.mp hsole
  have hlast : chain.last ∈ shipped :=
    mem_shipped_of_descends hroots hshipped hchain.1
      (root_mem_shipped hroots hshipped hkey hget hfirst)
      (fun step hstep => hsteps _ (List.mem_map_of_mem hstep)) _ (chain.last_mem_targets)
  obtain ⟨hfound, hplaced⟩ := edgesFound_of_shipped hroots hshipped hlast
  refine ⟨hfound, hplaced, fun condition hdeclared => ?_⟩
  obtain ⟨as, has, heq⟩ := resolutionsOf_eq_of_sole hroots hshipped htable hlast
    (hsole _ (chain.last_mem_targets))
  have hlisted : g.resolution chain ⟨chain.last, condition⟩ ∈
      walks.flatten.flatMap (g.resolutionsOf table) := by
    have hwalk := (mem_walks hroots hwalks).mpr ⟨⟨key, hkey, hget⟩, hchain⟩
    refine List.mem_flatMap.mpr ⟨chain, hwalk, ?_⟩
    rw [heq]
    exact List.mem_map_of_mem (own_mem_attachments has hdeclared)
  exact ResolutionSet.exists_triple_of_mem hlisted

/-- An image with one member, stored under keys that are no ids. -/
def rekeyed : Graph where
  outputRoot := "out"
  entries :=
    [("top", { id := "image", kind := .container, installName := "system.img"
               deps := [⟨"0", .container, some "bin/app"⟩] }),
     ("0", { id := "app", installName := "app", package := some "App"
             conditions := [⟨.notice, none, none⟩], deps := [⟨"top", .toolchain, none⟩] })]

/-- The way to the app in `rekeyed`. -/
def rekeyedChain : Chain where
  root := { id := "image", kind := .container, installName := "system.img"
            deps := [⟨"0", .container, some "bin/app"⟩] }
  steps := [⟨⟨"0", .container, some "bin/app"⟩,
    { id := "app", installName := "app", package := some "App"
      conditions := [⟨.notice, none, none⟩], deps := [⟨"top", .toolchain, none⟩] }⟩]

theorem resolve_reports_chain_rekeyed : ¬ rekeyed.KeyedById ∧ rekeyed.IsChain rekeyedChain ∧
    (∀ t ∈ rekeyedChain.targets, rekeyed.SoleOfId ["top"] t) ∧
    ∃ set, rekeyed.resolve ["top"] = .ok set ∧
      ∃ r ∈ set.toList, r.triple = ⟨⟨.notice, none⟩, "App", "out/system.img/bin/app"⟩ := by
  have hkeys : ¬ rekeyed.KeyedById := fun h => absurd (h.1 _ List.mem_cons_self) (by decide)
  have hchain : rekeyed.IsChain rekeyedChain := ⟨⟨by decide, rfl, trivial⟩, by decide⟩
  have hdistinct : ∀ t ∈ rekeyedChain.targets, ∀ u ∈ rekeyed.targets, u.id = t.id → u = t := by
    decide
  have hsole : ∀ t ∈ rekeyedChain.targets, rekeyed.SoleOfId ["top"] t :=
    fun t ht u hu hid => hdistinct t ht u hu.mem_targets hid
  obtain ⟨-, -, hreported⟩ := resolve_reports_chain
    (show rekeyed.resolve ["top"] = .ok _ from rfl) ⟨"top", by decide, rfl⟩ hchain hsole
  exact ⟨hkeys, hchain, hsole, _, rfl, hreported _ List.mem_cons_self⟩

/-- An image that holds two libraries of one id, of which only the second has a condition. -/
def twins : Graph where
  outputRoot := "out"
  entries :=
    [("image", { id := "image", kind := .container, installName := "system.img"
                 deps := [⟨"old", .container, none⟩, ⟨"new", .container, none⟩] }),
     ("old", { id := "lib", installName := "libold.so" }),
     ("new", { id := "lib", installName := "libnew.so", package := some "New"
               conditions := [⟨.restricted, none, none⟩] })]

/-- The way to the second library in `twins`. -/
def twinChain : Chain where
  root := { id := "image", kind := .container, installName := "system.img"
            deps := [⟨"old", .container, none⟩, ⟨"new", .container, none⟩] }
  steps := [⟨⟨"new", .container, none⟩,
    { id := "lib", installName := "libnew.so", package := some "New"
      conditions := [⟨.restricted, none, none⟩] }⟩]

/-- The resolution succeeds, and the condition of the second library is nowhere in it. -/
theorem resolve_omits_twin : ∃ set, twins.resolve ["image"] = .ok set ∧
    twins.get? "image" = some twinChain.root ∧ twins.IsChain twinChain ∧
    ⟨.restricted, none, none⟩ ∈ twinChain.last.conditions ∧
    ¬ ∃ r ∈ set.toList, r.triple = ⟨⟨.restricted, none⟩, "New", "out/system.img/libnew.so"⟩ :=
  ⟨_, rfl, rfl, ⟨⟨by decide, rfl, trivial⟩, by decide⟩, by decide, by decide⟩

end LicenseNotice.Graph
