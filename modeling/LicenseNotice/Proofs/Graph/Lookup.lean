import LicenseNotice.Graph

/-! # Look-ups in a graph

Building a graph by `insert` keeps every target under its own id, and then an id stands for one
target. What a traversal has not met yet is counted by `unseen`; no traversal can go on once that
count is used up.
-/

namespace LicenseNotice.Graph

set_option autoImplicit false

variable {g : Graph} {key : String} {t u : Target}

theorem mem_targets_of_get? (h : g.get? key = some t) : t ∈ g.targets :=
  List.mem_map_of_mem (Keyed.mem_of_get? h)

theorem get?_eq_none_iff : g.get? key = none ↔ ¬ g.contains key := by
  simp [get?, contains, Keyed.contains]

theorem contains_iff_exists : g.contains key ↔ ∃ t, g.get? key = some t := by
  rw [contains, Keyed.contains, Option.isSome_iff_exists]
  rfl

theorem contains_of_get? (h : g.get? key = some t) : g.contains key :=
  contains_iff_exists.mpr ⟨t, h⟩

theorem contains_eq_of_keys {g' : Graph} (h : Keyed.keys g.entries = Keyed.keys g'.entries)
    (key : String) : g.contains key = g'.contains key := by
  rw [Bool.eq_iff_iff, contains, contains, Keyed.contains_iff_mem_keys, Keyed.contains_iff_mem_keys, h]

namespace KeyedById

theorem id_of_get? (hg : g.KeyedById) (h : g.get? key = some t) : t.id = key :=
  (hg.1 _ (Keyed.mem_of_get? h)).symm

theorem get?_id (hg : g.KeyedById) (h : t ∈ g.targets) : g.get? t.id = some t := by
  obtain ⟨⟨name, _⟩, hentry, rfl⟩ := List.mem_map.mp h
  rw [← hg.1 _ hentry]
  exact Keyed.get?_of_mem hg.2 hentry

theorem get?_eq_some_iff (hg : g.KeyedById) : g.get? key = some t ↔ t ∈ g.targets ∧ t.id = key := by
  constructor
  · exact fun h => ⟨mem_targets_of_get? h, hg.id_of_get? h⟩
  · rintro ⟨ht, rfl⟩
    exact hg.get?_id ht

theorem ids_targets (hg : g.KeyedById) : g.targets.map (·.id) = Keyed.keys g.entries := by
  rw [targets, Keyed.values, List.map_map, Keyed.keys]
  exact List.map_congr_left fun entry hentry => (hg.1 entry hentry).symm

theorem nodup_ids (hg : g.KeyedById) : (g.targets.map (·.id)).Nodup := hg.ids_targets ▸ hg.2

theorem get?_eq_of_perm {g' : Graph} (hg : g.KeyedById) (hg' : g'.KeyedById)
    (h : g.targets.Perm g'.targets) : g.get? = g'.get? := by
  funext key
  ext t
  rw [hg.get?_eq_some_iff, hg'.get?_eq_some_iff, h.mem_iff]

theorem eq_of_id_eq (hg : g.KeyedById) (ht : t ∈ g.targets) (hu : u ∈ g.targets)
    (h : t.id = u.id) : t = u := by
  have h := congrArg g.get? h
  rw [hg.get?_id ht, hg.get?_id hu] at h
  exact Option.some.inj h

protected theorem empty (outputRoot : String) : (Graph.empty outputRoot).KeyedById :=
  ⟨nofun, List.nodup_nil⟩

protected theorem insert (hg : g.KeyedById) (t : Target) : (g.insert t).2.KeyedById := by
  refine ⟨?_, Keyed.nodup_keys_put hg.2⟩
  intro entry hentry
  rcases Keyed.mem_put hentry with rfl | hentry
  · rfl
  · exact hg.1 entry hentry

end KeyedById

/-- Whatever targets are put together, in whatever order, each ends up under its own id. -/
theorem keyedById_ofTargets (outputRoot : String) (targets : List Target) :
    (ofTargets outputRoot targets).KeyedById := by
  have hfold : ∀ g : Graph, g.KeyedById →
      (targets.foldl (fun g t => (g.insert t).2) g).KeyedById := by
    induction targets with
    | nil => exact fun _ hg => hg
    | cons t rest ih => exact fun g hg => ih _ (hg.insert t)
  exact hfold _ (.empty outputRoot)

theorem ofTargets_eq (outputRoot : String) (targets : List Target) :
    ofTargets outputRoot targets = ⟨outputRoot, Keyed.ofList (targets.map fun t => (t.id, t))⟩ := by
  rw [ofTargets, Keyed.ofList, List.foldl_map]
  exact List.foldl_hom (Graph.mk outputRoot) fun _ _ => rfl

/-- Targets with distinct ids are stored in the order in which they come. -/
theorem ofTargets_of_nodup (outputRoot : String) {targets : List Target}
    (unique : (targets.map (·.id)).Nodup) :
    ofTargets outputRoot targets = ⟨outputRoot, targets.map fun t => (t.id, t)⟩ := by
  have hkeys : Keyed.keys (targets.map fun t => (t.id, t)) = targets.map (·.id) := by
    rw [Keyed.keys, List.map_map]
    rfl
  rw [ofTargets_eq, Keyed.ofList_of_nodup (hkeys ▸ unique)]

theorem targets_ofTargets (outputRoot : String) {targets : List Target}
    (unique : (targets.map (·.id)).Nodup) : (ofTargets outputRoot targets).targets = targets := by
  rw [ofTargets_of_nodup outputRoot unique, Graph.targets, Keyed.values, List.map_map]
  exact List.map_id _

theorem outputRoot_ofTargets (outputRoot : String) {targets : List Target}
    (unique : (targets.map (·.id)).Nodup) :
    (ofTargets outputRoot targets).outputRoot = outputRoot := by
  rw [ofTargets_of_nodup outputRoot unique]

theorem size_eq_length_targets (g : Graph) : g.size = g.targets.length :=
  (List.length_map _).symm

/-- The number of targets whose ids are not in the list. -/
def unseen (g : Graph) (ids : List String) : Nat :=
  g.targets.countP (·.id ∉ ids)

theorem unseen_nil (g : Graph) : g.unseen [] = g.size := by
  simp [unseen, targets, size, Keyed.values]

theorem unseen_anti {ids more : List String} (h : ids ⊆ more) : g.unseen more ≤ g.unseen ids := by
  apply List.countP_mono_left
  intro t _ ht
  simp only [decide_eq_true_eq] at ht ⊢
  exact fun hm => ht (h hm)

theorem unseen_cons_lt {ids : List String} (ht : t ∈ g.targets) (hid : t.id ∉ ids) :
    g.unseen (t.id :: ids) < g.unseen ids := by
  have hle : ∀ targets : List Target,
      targets.countP (·.id ∉ t.id :: ids) ≤ targets.countP (·.id ∉ ids) :=
    fun _ => List.countP_mono_left fun u _ hu => by simp_all
  obtain ⟨before, after, hsplit⟩ := List.append_of_mem ht
  rw [unseen, unseen, hsplit, List.countP_append, List.countP_append,
    List.countP_cons_of_neg (by simp), List.countP_cons_of_pos (by simpa using hid)]
  have hbefore := hle before
  have hafter := hle after
  omega

end LicenseNotice.Graph
