import LicenseNotice.Proofs.Resolve.Preorder
import LicenseNotice.Proofs.Resolve.Termination

/-! # What is shipped and what is visited

The search for what ships marks an id when it is queued, the walks go back and forth along chains on
which no id repeats. Both meet the same targets: the search lists each of them once, and a target that
is reached at all is reached by a chain without repetition. So a walk finds an entry in the table of
attachments wherever it looks one up, and it is the entry of the target it has come to.
-/

namespace LicenseNotice.Graph

set_option autoImplicit false

open Relation (ReflTransGen)

/-- Every id was queued once, and what was queued is pending or, the latest first, in `visited`. -/
structure Frontier.Marks (frontier : Frontier) (visited : List String) : Prop where
  once : frontier.queued.Nodup
  split : frontier.queued = (frontier.pending.map (·.id)).reverse ++ visited

/-- A walk from one of the roots is called for a chain that ends in `t`. -/
def Visits (g : Graph) (roots : List Target) (t : Target) : Prop :=
  ∃ root ∈ roots, ∃ path chain,
    ReflTransGen g.Calls ([root.id], ⟨root, []⟩) (path, chain) ∧ chain.last = t

variable {g : Graph} {roots : List String} {targets shipped : List Target}
  {walks : List (List Chain)} {table : List (String × List Attachment)} {chain : Chain}
  {t u root : Target} {past now : Frontier} {visited : List String} {edge : Edge} {steps : List Step}

/-! The search meets no id twice -/

namespace Frontier.Marks

protected theorem empty : Marks {} [] := ⟨List.nodup_nil, rfl⟩

protected theorem enqueue (h : past.Marks visited) (t : Target) : (past.enqueue t).Marks visited := by
  rw [enqueue]
  split
  case isTrue => exact h
  case isFalse hid =>
    refine ⟨List.nodup_cons.mpr ⟨hid, h.once⟩, ?_⟩
    rw [List.map_append, List.reverse_append, h.split]
    rfl

protected theorem ofRoots (roots : List Target) : (ofRoots roots).Marks [] := by
  have hfold : ∀ frontier : Frontier, frontier.Marks [] → (roots.foldl enqueue frontier).Marks [] := by
    induction roots with
    | nil => exact fun _ h => h
    | cons root rest ih => exact fun frontier h => ih _ (h.enqueue root)
  exact hfold {} .empty

theorem passEdge (h : past.Marks visited) (hpass : g.passEdge t past edge = .ok now) :
    now.Marks visited := by
  obtain ⟨dep, -, ⟨-, rfl⟩ | ⟨-, -, rfl⟩⟩ := passEdge_ok hpass
  · exact h
  · exact h.enqueue dep

theorem passEdges {edges : List Edge} (h : past.Marks visited)
    (hpass : edges.foldlM (g.passEdge t) past = .ok now) : now.Marks visited := by
  induction edges generalizing past with
  | nil =>
    cases hpass
    exact h
  | cons edge rest ih =>
    obtain ⟨middle, hedge, hrest⟩ := Refusal.bind_eq_ok.mp hpass
    exact ih (h.passEdge hedge) hrest

theorem next {queued : List String} {pending : List Target}
    (h : Marks ⟨queued, t :: pending⟩ visited) : Marks ⟨queued, pending⟩ (t.id :: visited) := by
  refine ⟨h.once, h.split.trans ?_⟩
  rw [List.map_cons, List.reverse_cons, List.append_assoc]
  rfl

theorem nodup_of_shippedFrom {limit : Nat} (h : past.Marks visited)
    (hshipped : g.shippedFrom limit past = .ok shipped) :
    ((shipped.map (·.id)).reverse ++ visited).Nodup := by
  induction limit generalizing past visited shipped with
  | zero =>
    obtain ⟨queued, _ | ⟨t, pending⟩⟩ := past
    · cases hshipped
      exact h.split ▸ h.once
    · cases hshipped
  | succ limit ih =>
    obtain ⟨queued, _ | ⟨t, pending⟩⟩ := past
    · cases hshipped
      exact h.split ▸ h.once
    · obtain ⟨middle, hmiddle, hshipped⟩ := Refusal.bind_eq_ok.mp hshipped
      obtain ⟨later, hlater, rfl⟩ := Refusal.bind_pure_eq_ok.mp hshipped
      have hnodup := ih (h.next.passEdges hmiddle) hlater
      rwa [List.map_cons, List.reverse_cons, List.append_assoc]

end Frontier.Marks

/-- Whatever the keys of the graph and the roots are, no id is shipped twice. -/
theorem nodup_ids_shipped (h : g.shipped targets = .ok shipped) : (shipped.map (·.id)).Nodup := by
  have hnodup := (Frontier.Marks.ofRoots targets).nodup_of_shippedFrom h
  rwa [List.append_nil, List.nodup_reverse] at hnodup

/-! Chains without repetition -/

theorem Descends.mem_targets (ht : t ∈ g.targets) (h : g.Descends t steps) :
    ∀ u ∈ (Chain.mk t steps).targets, u ∈ g.targets := by
  induction steps generalizing t with
  | nil => exact fun u hu => List.mem_singleton.mp hu ▸ ht
  | cons step rest ih =>
    obtain ⟨-, hget, hrest⟩ := h
    exact List.forall_mem_cons.mpr ⟨ht, ih (mem_targets_of_get? hget) hrest⟩

/-- A chain goes on from each of its targets. -/
theorem IsChain.exists_from (h : g.IsChain ⟨root, steps⟩) (hu : u ∈ (Chain.mk root steps).targets) :
    ∃ rest, g.IsChain ⟨u, rest⟩ ∧ (Chain.mk u rest).last = (Chain.mk root steps).last := by
  induction steps generalizing root with
  | nil =>
    obtain rfl := List.mem_singleton.mp hu
    exact ⟨[], h, rfl⟩
  | cons step steps ih =>
    rcases List.mem_cons.mp hu with rfl | hu
    · exact ⟨step :: steps, h, rfl⟩
    · obtain ⟨⟨-, -, hrest⟩, hids⟩ := h
      rw [Chain.last_cons]
      exact ih ⟨hrest, (List.nodup_cons.mp hids).2⟩ hu

theorem exists_chain_of_reaches (hg : g.KeyedById) (hroot : root ∈ g.targets)
    (h : ReflTransGen (g.Links [.container]) root t) :
    ∃ steps, g.IsChain ⟨root, steps⟩ ∧ (Chain.mk root steps).last = t := by
  -- A chain from a member is put behind the root, unless it comes back to the root: then what follows
  -- there is enough.
  induction h using ReflTransGen.head_induction_on with
  | refl => exact ⟨[], ⟨trivial, List.nodup_singleton _⟩, rfl⟩
  | @head root member hlink _ ih =>
    obtain ⟨steps, hchain, hlast⟩ := ih hlink.mem_targets
    by_cases hid : root.id ∈ (Chain.mk member steps).targets.map (·.id)
    · obtain ⟨u, hu, huid⟩ := List.mem_map.mp hid
      have hmem := hchain.1.mem_targets hlink.mem_targets u hu
      obtain rfl := hg.eq_of_id_eq hmem hroot huid
      obtain ⟨rest, hrest, hend⟩ := hchain.exists_from hu
      exact ⟨rest, hrest, hend.trans hlast⟩
    · obtain ⟨edge, hdeps, hl, hget⟩ := hlink
      have hedge := Target.mem_memberEdges.mpr ⟨hdeps, List.mem_singleton.mp hl⟩
      exact ⟨⟨edge, member⟩ :: steps, ⟨⟨hedge, hget, hchain.1⟩, List.nodup_cons.mpr ⟨hid, hchain.2⟩⟩,
        (Chain.last_cons root ⟨edge, member⟩ steps).trans hlast⟩

theorem ships_iff_exists_chain (hg : g.KeyedById) : g.Ships roots t ↔
    ∃ chain, (∃ key ∈ roots, g.get? key = some chain.root) ∧ g.IsChain chain ∧ chain.last = t := by
  constructor
  · rintro ⟨key, hkey, root, hget, hreach⟩
    obtain ⟨steps, hchain, hlast⟩ := exists_chain_of_reaches hg (mem_targets_of_get? hget) hreach
    exact ⟨⟨root, steps⟩, ⟨key, hkey, hget⟩, hchain, hlast⟩
  · rintro ⟨chain, hroot, hchain, rfl⟩
    exact hchain.ships hroot

/-! The walks -/

theorem keys_attachmentTable (h : g.attachmentTable shipped = .ok table) :
    Keyed.keys table = shipped.map (·.id) := by
  induction Refusal.mapM_eq_ok.mp h with
  | nil => rfl
  | cons hentry hrest ih =>
    obtain ⟨as, -, rfl⟩ := Refusal.bind_pure_eq_ok.mp hentry
    exact congrArg _ (ih (Refusal.mapM_eq_ok.mpr hrest))

theorem mem_walks_iff_calls (hwalks : targets.mapM g.walk = .ok walks) :
    chain ∈ walks.flatten ↔ ∃ root ∈ targets, ∃ path,
      ReflTransGen g.Calls ([root.id], ⟨root, []⟩) (path, chain) :=
  Refusal.mem_flatten_of_mapM_eq_ok hwalks
    (fun _ _ _ hwalk chain => mem_walkFrom_iff_calls hwalk chain) chain

theorem visits_iff_exists_mem_walks (hwalks : targets.mapM g.walk = .ok walks) :
    g.Visits targets t ↔ ∃ chain ∈ walks.flatten, chain.last = t := by
  simp only [mem_walks_iff_calls hwalks]
  constructor
  · rintro ⟨root, hroot, path, chain, hcalls, hlast⟩
    exact ⟨chain, ⟨root, hroot, path, hcalls⟩, hlast⟩
  · rintro ⟨chain, ⟨root, hroot, path, hcalls⟩, hlast⟩
    exact ⟨root, hroot, path, chain, hcalls, hlast⟩

/-- The search lists each target that ships once and nothing else, and these are the targets at the ends
of chains without repeated ids, which are those the walks visit. So the table of attachments has one
entry for each target visited, and it holds the attachments of that target. -/
theorem shipped_iff_visits (hg : g.KeyedById) (hroots : roots.mapM g.root = .ok targets)
    (hshipped : g.shipped targets = .ok shipped) :
    (shipped.map (·.id)).Nodup ∧
    (∀ t, t ∈ shipped ↔ g.Ships roots t) ∧
    (∀ t, t ∈ shipped ↔ g.Visits targets t) ∧
    (∀ t, t ∈ shipped ↔ ∃ chain, (∃ key ∈ roots, g.get? key = some chain.root) ∧
      g.IsChain chain ∧ chain.last = t) ∧
    ∃ walks, targets.mapM g.walk = .ok walks ∧
      (∀ t, t ∈ shipped ↔ ∃ chain ∈ walks.flatten, chain.last = t) ∧
      ∀ table, g.attachmentTable shipped = .ok table →
        Keyed.keys table = shipped.map (·.id) ∧
        ∀ chain ∈ walks.flatten, ∃ as, g.attachments chain.last = .ok as ∧
          table.lookup chain.last.id = some as := by
  have hships : ∀ t, t ∈ shipped ↔ g.Ships roots t := fun t => mem_shipped hroots hshipped hg
  have hchains := fun t => (hships t).trans (ships_iff_exists_chain hg)
  obtain ⟨walks, hwalks⟩ :=
    Refusal.exists_mapM_eq_ok.mpr fun root => exists_walk_of_shipped hg hroots hshipped
  have hwalked : ∀ t, t ∈ shipped ↔ ∃ chain ∈ walks.flatten, chain.last = t := fun t => by
    simp only [mem_walks hroots hwalks, and_assoc]
    exact hchains t
  refine ⟨nodup_ids_shipped hshipped, hships,
    fun t => (hwalked t).trans (visits_iff_exists_mem_walks hwalks).symm, hchains, walks, hwalks,
    hwalked, fun table htable => ⟨keys_attachmentTable htable, fun chain hchain => ?_⟩⟩
  have hlast : chain.last ∈ shipped := (hwalked _).mpr ⟨chain, hchain, rfl⟩
  exact lookup_attachmentTable htable hlast
    fun u hu => hg.soleOfId ((hships _).mp hlast) u ((hships u).mp hu)

/-- The image and its vendor directory, which hold each other, are both roots, and the library is
visited by six chains. -/
theorem shipped_iff_visits_layered : layered.KeyedById ∧
    ∃ targets shipped table walks, ["image", "vendor"].mapM layered.root = .ok targets ∧
      layered.shipped targets = .ok shipped ∧ shipped.map (·.id) = ["image", "vendor", "lib"] ∧
      layered.attachmentTable shipped = .ok table ∧ table.map (·.2.length) = [0, 0, 1] ∧
      targets.mapM layered.walk = .ok walks ∧
      (walks.flatten.map (·.last.id)).count "lib" = 6 ∧
      (∀ t, t ∈ shipped ↔ layered.Visits targets t) ∧
      ∀ chain ∈ walks.flatten, ∃ as, layered.attachments chain.last = .ok as ∧
        table.lookup chain.last.id = some as := by
  have hkeyed : layered.KeyedById := keyedById_ofTargets _ _
  obtain ⟨-, -, hvisits, -, walks, hwalks, -, hlookups⟩ :=
    shipped_iff_visits hkeyed (show ["image", "vendor"].mapM layered.root = .ok _ from rfl) rfl
  obtain ⟨-, hlookup⟩ := hlookups _ rfl
  refine ⟨hkeyed, _, _, _, walks, rfl, rfl, by decide, rfl, by decide, hwalks, ?_, hvisits, hlookup⟩
  cases hwalks
  decide

end LicenseNotice.Graph
