import LicenseNotice.Proofs.Resolve.Discovery
import LicenseNotice.Proofs.Resolve.Success
import LicenseNotice.Proofs.Section.Reordering

/-! # Lists of roots

The roots of a resolution can be resolved part by part: whether it succeeds and what it lists are
put together from the parts. A root that comes again adds nothing, and the order of the roots shows
in the order of the installs of a block alone.
-/

namespace LicenseNotice

set_option autoImplicit false

namespace Graph

variable {g : Graph} {roots roots' : List String} {t o : Target} {key : String}

/-! Which roots there are -/

theorem ships_append : g.Ships (roots ++ roots') t ↔ g.Ships roots t ∨ g.Ships roots' t := by
  simp only [Ships, List.mem_append, or_and_right, exists_or]

theorem relevant_append :
    g.Relevant (roots ++ roots') o ↔ g.Relevant roots o ∨ g.Relevant roots' o := by
  simp only [Relevant, ships_append, or_and_right, exists_or]

theorem exists_resolve_append (hg : g.KeyedById) (hne : roots ≠ []) (hne' : roots' ≠ []) :
    (∃ set, g.resolve (roots ++ roots') = .ok set) ↔
      (∃ set, g.resolve roots = .ok set) ∧ ∃ set, g.resolve roots' = .ok set := by
  simp only [exists_resolve_iff hg, List.mem_append, relevant_append, ships_append, or_imp, forall_and]
  have hne'' : roots ++ roots' ≠ [] := by simp [hne]
  simp only [hne, hne', hne'', ne_eq, not_false_eq_true, true_and]
  exact ⟨fun ⟨⟨h₁, h₂⟩, ⟨h₃, h₄⟩, h₅, h₆⟩ => ⟨⟨h₁, h₃, h₅⟩, h₂, h₄, h₆⟩,
    fun ⟨⟨h₁, h₃, h₅⟩, h₂, h₄, h₆⟩ => ⟨⟨h₁, h₂⟩, ⟨h₃, h₄⟩, h₅, h₆⟩⟩

theorem exists_resolve_congr (hg : g.KeyedById) (same : ∀ key, key ∈ roots ↔ key ∈ roots') :
    (∃ set, g.resolve roots = .ok set) ↔ ∃ set, g.resolve roots' = .ok set := by
  have hnil : roots = [] ↔ roots' = [] := by
    simp only [List.eq_nil_iff_forall_not_mem, same]
  simp only [exists_resolve_iff hg, ne_eq, hnil, Relevant, Ships, same]

/-! A root that comes again -/

theorem ofRoots_append_known {before after : List Target}
    (h : t.id ∈ (Frontier.ofRoots before).queued) :
    Frontier.ofRoots (before ++ t :: after) = Frontier.ofRoots (before ++ after) := by
  have hskip : (Frontier.ofRoots before).enqueue t = Frontier.ofRoots before := if_pos h
  rw [Frontier.ofRoots, Frontier.ofRoots, List.foldl_append, List.foldl_append, List.foldl_cons]
  exact congrArg (List.foldl Frontier.enqueue · after) hskip

theorem check_append_known {before after : List Target} (hroots : roots.mapM g.root = .ok before)
    (ht : t ∈ before) : g.check (before ++ t :: after) = g.check (before ++ after) := by
  rw [check, check, shipped, shipped, ofRoots_append_known ((ofRoots_ships hroots).2 t ht)]

theorem ofList_discovered_append_known (before after : List String) (hkey : key ∈ before) :
    ResolutionSet.ofList ((before ++ key :: after).flatMap g.discovered) =
      .ofList ((before ++ after).flatMap g.discovered) := by
  rw [List.flatMap_append, List.flatMap_append, List.flatMap_cons]
  have hknown : ∀ r ∈ g.discovered key, r.triple ∈ (before.flatMap g.discovered).map (·.triple) :=
    fun r hr => List.mem_map_of_mem (List.mem_flatMap.mpr ⟨key, hkey, hr⟩)
  exact ResolutionSet.ofList_append_known hknown _

theorem resolve_append_known (hg : g.KeyedById) {before : List String} (hkey : key ∈ before)
    (after : List String) : g.resolve (before ++ key :: after) = g.resolve (before ++ after) := by
  have hne : before ≠ [] := List.ne_nil_of_mem hkey
  rw [resolve_eq_check hg (by simp), resolve_eq_check hg (by simp [hne]), List.mapM_append,
    List.mapM_append, ofList_discovered_append_known before after hkey]
  simp only [bind_assoc, pure_bind]
  apply Refusal.bind_congr_ok
  intro targets htargets
  -- The root has been looked up before it comes again, so that look-up cannot fail.
  obtain ⟨t, hroot⟩ := Refusal.exists_mapM_eq_ok.mp ⟨targets, htargets⟩ key hkey
  have ht : t ∈ targets := (Refusal.mem_of_mapM_eq_ok htargets t).mpr ⟨key, hkey, hroot⟩
  replace hroot : g.root key = pure t := hroot
  simp only [List.mapM_cons, hroot, bind_assoc, pure_bind, check_append_known htargets ht]

/-- Resolving two lists of roots together is resolving each and keeping first occurrences. A root
that is in the list already changes nothing where it comes again, not even a failure. -/
theorem resolve_append (hg : g.KeyedById) (hne : roots ≠ []) (hne' : roots' ≠ []) :
    ((∃ set, g.resolve (roots ++ roots') = .ok set) ↔
      (∃ set, g.resolve roots = .ok set) ∧ ∃ set, g.resolve roots' = .ok set) ∧
    (∀ set set₁ set₂, g.resolve (roots ++ roots') = .ok set → g.resolve roots = .ok set₁ →
      g.resolve roots' = .ok set₂ →
      set.toList = distinctBy (·.triple) (set₁.toList ++ set₂.toList)) ∧
    ∀ before key after, key ∈ before →
      g.resolve (before ++ key :: after) = g.resolve (before ++ after) := by
  refine ⟨exists_resolve_append hg hne hne', fun set set₁ set₂ h h₁ h₂ => ?_,
    fun _ _ after hkey => resolve_append_known hg hkey after⟩
  rw [eq_ofList_of_resolve hg h, eq_ofList_of_resolve hg h₁, eq_ofList_of_resolve hg h₂,
    List.flatMap_append]
  exact ResolutionSet.toList_ofList_append _ _

theorem resolve_append_image : sampleImage.KeyedById ∧ ∃ set set₁ set₂,
    sampleImage.resolve (["image"] ++ ["app", "image"]) = .ok set ∧
    sampleImage.resolve ["image"] = .ok set₁ ∧ sampleImage.resolve ["app", "image"] = .ok set₂ ∧
    (set₁.size = 3 ∧ set₂.size = 6 ∧ set.size = 6) ∧
    set.toList = distinctBy (·.triple) (set₁.toList ++ set₂.toList) ∧
    sampleImage.resolve (["image"] ++ "image" :: ["app"]) =
      sampleImage.resolve (["image"] ++ ["app"]) := by
  obtain ⟨-, hlist, hknown⟩ := resolve_append sampleImage_keyedById
    (List.cons_ne_nil "image" []) (List.cons_ne_nil "app" ["image"])
  exact ⟨sampleImage_keyedById, _, _, _, rfl, rfl, rfl, by decide, hlist _ _ _ rfl rfl rfl,
    hknown ["image"] "image" ["app"] List.mem_cons_self⟩

/-! The order of the roots -/

theorem mem_triples_congr (hg : g.KeyedById) (same : ∀ key, key ∈ roots ↔ key ∈ roots')
    {set set' : ResolutionSet} (h : g.resolve roots = .ok set) (h' : g.resolve roots' = .ok set')
    (triple : Triple) :
    triple ∈ set.toList.map (·.triple) ↔ triple ∈ set'.toList.map (·.triple) := by
  rw [eq_ofList_of_resolve hg h, eq_ofList_of_resolve hg h', ResolutionSet.mem_triples_ofList,
    ResolutionSet.mem_triples_ofList]
  simp only [List.mem_map, List.mem_flatMap, same]

theorem sections_eq_ok {ss : List Section} :
    g.sections roots = .ok ss ↔ ∃ set, g.resolve roots = .ok set ∧ set.sections = ss :=
  Refusal.bind_pure_eq_ok

theorem exists_sections_iff :
    (∃ ss, g.sections roots = .ok ss) ↔ ∃ set, g.resolve roots = .ok set := by
  simp only [sections_eq_ok]
  exact ⟨fun ⟨_, set, h, _⟩ => ⟨set, h⟩, fun ⟨set, h⟩ => ⟨_, set, h, rfl⟩⟩

/-- The order of the roots decides neither success nor anything in the sections but the order of
installs. -/
theorem sections_of_perm_roots (hg : g.KeyedById) (hperm : roots.Perm roots') :
    ((∃ ss, g.sections roots = .ok ss) ↔ ∃ ss, g.sections roots' = .ok ss) ∧
    ∀ ss ss', g.sections roots = .ok ss → g.sections roots' = .ok ss' →
      List.Forall₂ Section.Reorders ss ss' := by
  have same : ∀ key, key ∈ roots ↔ key ∈ roots' := fun _ => hperm.mem_iff
  refine ⟨?_, fun ss ss' h h' => ?_⟩
  · rw [exists_sections_iff, exists_sections_iff]
    exact exists_resolve_congr hg same
  · obtain ⟨set, hset, rfl⟩ := sections_eq_ok.mp h
    obtain ⟨set', hset', rfl⟩ := sections_eq_ok.mp h'
    exact ResolutionSet.reorders_sections (mem_triples_congr hg same hset hset')

theorem sections_of_perm_roots_image : sampleImage.KeyedById ∧
    ["image", "app"].Perm ["app", "image"] ∧ ∃ ss ss',
      sampleImage.sections ["image", "app"] = .ok ss ∧
      sampleImage.sections ["app", "image"] = .ok ss' ∧ ss ≠ ss' ∧
      List.Forall₂ Section.Reorders ss ss' := by
  have hperm : ["image", "app"].Perm ["app", "image"] := .swap "app" "image" []
  obtain ⟨-, hsections⟩ := sections_of_perm_roots sampleImage_keyedById hperm
  exact ⟨sampleImage_keyedById, hperm, _, _, rfl, rfl, by decide, hsections _ _ rfl rfl⟩

end Graph

end LicenseNotice
