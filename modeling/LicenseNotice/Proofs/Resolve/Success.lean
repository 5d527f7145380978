import LicenseNotice.Proofs.Resolve.Stages

/-! # When resolution succeeds, and what its failures say

Three traversals validate edges under different stopping rules. Together they accept exactly the
graphs in which every edge of every relevant target names a target and no leaf that ships has
members; each failure names an edge or a root that is really at fault, and none comes from a walk.
-/

namespace LicenseNotice.Graph

set_option autoImplicit false

/-- `e` reports an edge that is really at fault: one of a relevant target that names nothing, or a
member edge of a leaf that ships. -/
def AtFault (g : Graph) (roots : List String) (e : ResolveError) : Prop :=
  (∃ t, g.Relevant roots t ∧ g.Dangles t e) ∨ ∃ t, g.Ships roots t ∧ g.Misplaces t e

variable {g : Graph} {roots : List String} {targets shipped : List Target} {e : ResolveError}

theorem exists_roots_iff :
    (∃ targets, roots.mapM g.root = .ok targets) ↔ ∀ key ∈ roots, g.contains key := by
  rw [Refusal.exists_mapM_eq_ok]
  simp only [root_eq_ok, contains_iff_exists]

theorem root_eq_error {key : String} :
    g.root key = .error e ↔ ¬ g.contains key ∧ e = .rootNotFound key := by
  rw [← get?_eq_none_iff]
  cases h : g.get? key <;> simp [root, h, eq_comm]

/-- The root reported is the first that the graph does not have. -/
theorem roots_eq_error : roots.mapM g.root = .error e ↔
    ∃ key, roots.find? (! g.contains ·) = some key ∧ e = .rootNotFound key := by
  rw [Refusal.mapM_eq_error]
  constructor
  · rintro ⟨before, key, after, rfl, hbefore, h⟩
    obtain ⟨hkey, rfl⟩ := root_eq_error.mp h
    refine ⟨key, List.find?_eq_some_iff_append.mpr ⟨by simpa using hkey, before, after, rfl, ?_⟩, rfl⟩
    intro other hother
    obtain ⟨t, ht⟩ := hbefore other hother
    simpa using contains_of_get? (root_eq_ok.mp ht)
  · rintro ⟨key, h, rfl⟩
    obtain ⟨hkey, before, after, rfl, hbefore⟩ := List.find?_eq_some_iff_append.mp h
    have hmissing := root_eq_error.mpr ⟨by simpa using hkey, rfl⟩
    refine ⟨before, key, after, rfl, fun other hother => ?_, hmissing⟩
    obtain ⟨t, ht⟩ := contains_iff_exists.mp (by simpa using hbefore other hother)
    exact ⟨t, root_eq_ok.mpr ht⟩

theorem find?_missing_eq_none :
    roots.find? (! g.contains ·) = none ↔ ∀ key ∈ roots, g.contains key := by
  simp

theorem resolve_of_missing {key : String} (h : roots.find? (! g.contains ·) = some key) :
    g.resolve roots = .error (.rootNotFound key) := by
  have hroots := roots_eq_error.mpr ⟨key, h, rfl⟩
  cases roots with
  | nil => cases h
  | cons first rest => exact Refusal.bind_eq_error.mpr (.inl hroots)

theorem atFault_of_error (hg : g.KeyedById) (hne : roots ≠ [])
    (hroots : ∀ key ∈ roots, g.contains key) (h : g.resolve roots = .error e) :
    g.AtFault roots e := by
  obtain ⟨found, hfound⟩ := exists_roots_iff.mpr hroots
  rcases resolve_error hne h with h | ⟨targets, htargets, h | ⟨shipped, hshipped, h | h⟩⟩
  · rw [hfound] at h
    cases h
  · obtain ⟨t, ht, hdangles | hmisplaces⟩ := shipped_error htargets h
    · exact .inl ⟨t, ht.relevant, hdangles⟩
    · exact .inr ⟨t, ht, hmisplaces⟩
  · obtain ⟨t, ht, h⟩ := attachmentTable_error h
    have hships := (mem_shipped htargets hshipped hg).mp ht
    obtain ⟨o, ho, hdangles⟩ := attachments_error hships.mem_targets h
    exact .inl ⟨o, ⟨t, hships, ho⟩, hdangles⟩
  · obtain ⟨before, root, after, hsplit, _, h⟩ := Refusal.mapM_eq_error.mp h
    have hroot : root ∈ targets := by simp [hsplit]
    obtain ⟨chains, hchains⟩ := exists_walk_of_shipped hg htargets hshipped hroot
    rw [hchains] at h
    cases h

theorem AtFault.edge (h : g.AtFault roots e) :
    (∃ dependent missing, e = .graphIncomplete dependent missing) ∨
    ∃ owner member, e = .malformedEdge owner member := by
  rcases h with ⟨_, _, _, _, _, rfl⟩ | ⟨_, _, _, _, _, rfl⟩
  · exact .inl ⟨_, _, rfl⟩
  · exact .inr ⟨_, _, rfl⟩

theorem resolve_error_cases (hg : g.KeyedById) (h : g.resolve roots = .error e) :
    (roots = [] ∧ e = .noRoots) ∨
    (∃ key, roots.find? (! g.contains ·) = some key ∧ e = .rootNotFound key) ∨
    roots ≠ [] ∧ (∀ key ∈ roots, g.contains key) ∧ g.AtFault roots e := by
  by_cases hne : roots = []
  · subst hne
    exact .inl ⟨rfl, (Except.error.inj h).symm⟩
  · cases hmissing : roots.find? (! g.contains ·) with
    | some key =>
      rw [resolve_of_missing hmissing] at h
      exact .inr (.inl ⟨key, rfl, (Except.error.inj h).symm⟩)
    | none =>
      have hroots := find?_missing_eq_none.mp hmissing
      exact .inr (.inr ⟨hne, hroots, atFault_of_error hg hne hroots h⟩)

theorem exists_resolve_iff (hg : g.KeyedById) : (∃ set, g.resolve roots = .ok set) ↔ roots ≠ [] ∧
    (∀ key ∈ roots, g.contains key) ∧ (∀ t, g.Relevant roots t → g.EdgesFound t) ∧
    ∀ t, g.Ships roots t → t.WellPlaced := by
  constructor
  · rintro ⟨set, h⟩
    obtain ⟨hne, targets, shipped, table, walks, htargets, hshipped, htable, _⟩ := resolve_eq_ok.mp h
    have hall := (exists_shipped_iff htargets hg).mp ⟨shipped, hshipped⟩
    refine ⟨hne, exists_roots_iff.mp ⟨targets, htargets⟩, ?_, fun t ht => (hall t ht).2⟩
    rintro o ⟨t, ht, ho⟩
    have hlisted := (mem_shipped htargets hshipped hg).mpr ht
    have hattached := exists_attachmentTable_iff.mp ⟨table, htable⟩ t hlisted
    exact (exists_attachments_iff hg ht.mem_targets).mp hattached o ho
  · rintro ⟨hne, hroots, hedges, hplaced⟩
    apply Refusal.exists_ok_of_ne_error
    intro e he
    rcases atFault_of_error hg hne hroots he with ⟨t, ht, hdangles⟩ | ⟨t, ht, hleaf, dep, hlink, _⟩
    · exact (hedges t ht).not_dangles e hdangles
    · obtain ⟨edge, hedge, hl, _⟩ := hlink
      exact hplaced t ht hleaf edge hedge (List.mem_singleton.mp hl)

/-- Exactly when resolution succeeds, which failure it ends in otherwise and what that failure
says; the walks, which run last and in any order, never fail. -/
theorem resolve_outcome (hg : g.KeyedById) (roots : List String) :
    ((∃ set, g.resolve roots = .ok set) ↔ roots ≠ [] ∧ (∀ key ∈ roots, g.contains key) ∧
      (∀ t, g.Relevant roots t → g.EdgesFound t) ∧ ∀ t, g.Ships roots t → t.WellPlaced) ∧
    (g.resolve roots = .error .noRoots ↔ roots = []) ∧
    (∀ key, g.resolve roots = .error (.rootNotFound key) ↔
      roots.find? (! g.contains ·) = some key) ∧
    (∀ e, g.resolve roots = .error e → roots ≠ [] → (∀ key ∈ roots, g.contains key) →
      (∃ t, g.Relevant roots t ∧ g.Dangles t e) ∨ ∃ t, g.Ships roots t ∧ g.Misplaces t e) ∧
    (∀ targets shipped, roots.mapM g.root = .ok targets → g.shipped targets = .ok shipped →
      ∀ root ∈ targets, ∃ chains, g.walk root = .ok chains) := by
  refine ⟨exists_resolve_iff hg, ⟨fun h => ?_, ?_⟩, fun key => ⟨fun h => ?_, resolve_of_missing⟩,
    fun e h hne hroots => atFault_of_error hg hne hroots h,
    fun _ _ hroots hshipped _ hroot => exists_walk_of_shipped hg hroots hshipped hroot⟩
  · rcases resolve_error_cases hg h with ⟨hnil, _⟩ | ⟨_, _, he⟩ | ⟨_, _, hfault⟩
    · exact hnil
    · cases he
    · obtain ⟨_, _, he⟩ | ⟨_, _, he⟩ := hfault.edge <;> cases he
  · rintro rfl
    exact resolve_nil g
  · rcases resolve_error_cases hg h with ⟨_, he⟩ | ⟨_, hmissing, he⟩ | ⟨_, _, hfault⟩
    · cases he
    · cases he
      exact hmissing
    · obtain ⟨_, _, he⟩ | ⟨_, _, he⟩ := hfault.edge <;> cases he

/-- A program whose library was built by a tool that nobody recorded. -/
def brokenBuild : Graph :=
  ofTargets "out"
    [{ id := "bin", installName := "bin", deps := [⟨"lib", .static, none⟩] },
     { id := "lib", installName := "lib.a", deps := [⟨"ghost", .toolchain, none⟩] }]

theorem resolve_outcome_broken : brokenBuild.KeyedById ∧
    brokenBuild.resolve ["bin"] = .error (.graphIncomplete "lib" "ghost") ∧
    ((∃ t, brokenBuild.Relevant ["bin"] t ∧ brokenBuild.Dangles t (.graphIncomplete "lib" "ghost")) ∨
      ∃ t, brokenBuild.Ships ["bin"] t ∧ brokenBuild.Misplaces t (.graphIncomplete "lib" "ghost")) := by
  have hg : brokenBuild.KeyedById := keyedById_ofTargets _ _
  have herr : brokenBuild.resolve ["bin"] = .error (.graphIncomplete "lib" "ghost") := rfl
  exact ⟨hg, herr, (resolve_outcome hg ["bin"]).2.2.2.1 _ herr (by decide) (by decide)⟩

end LicenseNotice.Graph
