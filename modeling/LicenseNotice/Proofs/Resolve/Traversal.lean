import LicenseNotice.Proofs.Resolve.Expansion
import LicenseNotice.Proofs.Resolve.Walk
import LicenseNotice.Resolve.Shipped

/-! # What a traversal reads of a graph

A traversal looks up keys, counts the targets of the graph, and reads the id, the kind and the edges
of the targets it meets; it reads nothing else. A graph that answers every look-up with a target
changed in its other fields is traversed as before, step by step: each traversal gives the changed
form of what it gave, or fails as it failed.
-/

namespace LicenseNotice

set_option autoImplicit false

/-- The change leaves alone what a traversal reads. -/
structure Target.KeepsLinks (change : Target → Target) : Prop where
  id : ∀ t, (change t).id = t.id
  kind : ∀ t, (change t).kind = t.kind
  deps : ∀ t, (change t).deps = t.deps

/-- The steps with their members changed, along the same edges. -/
def Chain.mapTargets (change : Target → Target) (chain : Chain) : Chain :=
  ⟨change chain.root, chain.steps.map fun step => ⟨step.edge, change step.member⟩⟩

namespace Chain

theorem mapTargets_id : mapTargets id = id := by
  funext chain
  simp [mapTargets]

variable (change : Target → Target) (chain : Chain)

theorem last_mapTargets : (chain.mapTargets change).last = change chain.last := by
  rw [last, last, mapTargets, List.getLast?_map]
  cases chain.steps.getLast? <;> rfl

theorem extend_mapTargets (edge : Edge) (member : Target) :
    (chain.mapTargets change).extend ⟨edge, change member⟩ =
      (chain.extend ⟨edge, member⟩).mapTargets change := by
  simp only [extend, mapTargets, List.map_append, List.map_cons, List.map_nil]

end Chain

def Expansion.mapTargets (change : Target → Target) (expansion : Expansion) : Expansion :=
  ⟨expansion.found.map change, expansion.visited⟩

namespace Graph

def Frontier.mapTargets (change : Target → Target) (frontier : Frontier) : Frontier :=
  ⟨frontier.queued, frontier.pending.map change⟩

/-- The graph `g'` answers as `g` does, but with the changed targets. -/
structure Mirrors (change : Target → Target) (g g' : Graph) : Prop where
  keeps : Target.KeepsLinks change
  size : g'.size = g.size
  get? : ∀ key, g'.get? key = (g.get? key).map change

namespace Mirrors

variable {change : Target → Target} {g g' : Graph} (h : Mirrors change g g')
  {t : Target} {edge : Edge} {depth : Nat}

include h

theorem root (key : String) : g'.root key = change <$> g.root key := by
  rw [Graph.root, Graph.root, h.get?]
  cases g.get? key <;> rfl

theorem mapM_root (roots : List String) :
    roots.mapM g'.root = List.map change <$> roots.mapM g.root :=
  Refusal.mapM_map_result fun key _ => h.root key

theorem follow : g'.follow (change t) edge = change <$> g.follow t edge := by
  rw [Graph.follow, Graph.follow, h.get?, h.keeps.id]
  cases g.get? edge.dependency <;> rfl

/-! What ships -/

theorem enqueue (frontier : Frontier) :
    (frontier.mapTargets change).enqueue (change t) = (frontier.enqueue t).mapTargets change := by
  by_cases hid : t.id ∈ frontier.queued
  · simp only [Frontier.enqueue, Frontier.mapTargets, h.keeps.id, hid, if_true]
  · simp only [Frontier.enqueue, Frontier.mapTargets, h.keeps.id, hid, if_false, List.map_append,
      List.map_cons, List.map_nil]

theorem ofRoots (roots : List Target) :
    Frontier.ofRoots (roots.map change) = (Frontier.ofRoots roots).mapTargets change := by
  have hroots : ∀ frontier : Frontier,
      (roots.map change).foldl Frontier.enqueue (frontier.mapTargets change) =
        (roots.foldl Frontier.enqueue frontier).mapTargets change := by
    induction roots with
    | nil => exact fun _ => rfl
    | cons t rest ih =>
      intro frontier
      rw [List.map_cons, List.foldl_cons, h.enqueue, ih, List.foldl_cons]
  exact hroots {}

theorem passEdge (frontier : Frontier) :
    g'.passEdge (change t) (frontier.mapTargets change) edge =
      Frontier.mapTargets change <$> g.passEdge t frontier edge := by
  have hcontainer : (change t).isContainer = t.isContainer := by
    rw [Target.isContainer, Target.isContainer, h.keeps.kind]
  rw [Graph.passEdge, Graph.passEdge, h.follow, bind_map_left, map_bind, hcontainer, h.keeps.id]
  congr 1
  funext dep
  rw [h.enqueue, h.keeps.id]
  split
  · rfl
  · split <;> rfl

theorem shippedFrom (limit : Nat) (frontier : Frontier) :
    g'.shippedFrom limit (frontier.mapTargets change) =
      List.map change <$> g.shippedFrom limit frontier := by
  induction limit generalizing frontier with
  | zero =>
    obtain ⟨queued, _ | ⟨t, pending⟩⟩ := frontier
    · rfl
    · rw [Frontier.mapTargets, List.map_cons, Graph.shippedFrom, Graph.shippedFrom, h.keeps.id]
      rfl
  | succ limit ih =>
    obtain ⟨queued, _ | ⟨t, pending⟩⟩ := frontier
    · rfl
    · have hedges : t.deps.foldlM (g'.passEdge (change t)) ⟨queued, pending.map change⟩ =
          Frontier.mapTargets change <$> t.deps.foldlM (g.passEdge t) ⟨queued, pending⟩ :=
        Refusal.foldlM_map_state (fun _ _ => h.passEdge) ⟨queued, pending⟩
      rw [Frontier.mapTargets, List.map_cons, Graph.shippedFrom, Graph.shippedFrom, h.keeps.deps,
        hedges]
      simp only [bind_map_left, map_bind, ih, map_pure, List.map_cons]

theorem shipped (roots : List Target) :
    g'.shipped (roots.map change) = List.map change <$> g.shipped roots := by
  rw [Graph.shipped, Graph.shipped, h.size, h.ofRoots, h.shippedFrom]

/-! What is attached -/

section Expansions

variable {linked linked' : Target → Except ResolveError (List Target)}
  (hlinked : ∀ t, linked' (change t) = List.map change <$> linked t)

include hlinked

theorem expandEdge
    (deeper : ∀ past t, g'.expand linked' depth (past.mapTargets change) (change t) =
      Expansion.mapTargets change <$> g.expand linked depth past t)
    (past : Expansion) :
    g'.expandEdge linked' depth (change t) (past.mapTargets change) edge =
      Expansion.mapTargets change <$> g.expandEdge linked depth t past edge := by
  rw [Graph.expandEdge, Graph.expandEdge, h.follow, bind_map_left, map_bind]
  congr 1
  funext dep
  cases edge.linkage
  case static => exact deeper past dep
  case dynamic | runtime =>
    simp only [hlinked, bind_map_left, map_bind, map_pure]
    simp only [Expansion.mapTargets, List.map_append]
  case toolchain | container => rfl

theorem expand (past : Expansion) (t : Target) :
    g'.expand linked' depth (past.mapTargets change) (change t) =
      Expansion.mapTargets change <$> g.expand linked depth past t := by
  induction depth generalizing past t with
  | zero =>
    by_cases hid : t.id ∈ past.visited
    · rw [expand_of_visited hid, expand_of_visited ((h.keeps.id t).symm ▸ hid)]
      rfl
    · rw [expand_zero hid, expand_zero ((h.keeps.id t).symm ▸ hid), h.keeps.id]
      rfl
  | succ depth ih =>
    by_cases hid : t.id ∈ past.visited
    · rw [expand_of_visited hid, expand_of_visited ((h.keeps.id t).symm ▸ hid)]
      rfl
    · have henter : (past.mapTargets change).enter (change t) = (past.enter t).mapTargets change := by
        simp only [Expansion.enter, Expansion.mapTargets, h.keeps.id, List.map_append,
          List.map_cons, List.map_nil]
      rw [expand_succ hid, expand_succ ((h.keeps.id t).symm ▸ hid), h.keeps.deps, henter]
      exact Refusal.foldlM_map_state (fun _ _ => h.expandEdge hlinked ih) _

theorem found_expand (t : Target) :
    Expansion.found <$> g'.expand linked' g'.size {} (change t) =
      List.map change <$> Expansion.found <$> g.expand linked g.size {} t := by
  calc Expansion.found <$> g'.expand linked' g'.size {} (change t)
    _ = Expansion.found <$> Expansion.mapTargets change <$> g.expand linked g.size {} t := by
      rw [h.size, ← h.expand hlinked]
      rfl
    _ = List.map change <$> Expansion.found <$> g.expand linked g.size {} t := by
      rw [Functor.map_map, Functor.map_map]
      rfl

end Expansions

theorem staticClosure (t : Target) :
    g'.staticClosure (change t) = List.map change <$> g.staticClosure t := by
  rw [staticClosure_eq_map, staticClosure_eq_map]
  exact h.found_expand (fun _ => rfl) t

theorem contributors (t : Target) :
    g'.contributors (change t) = List.map change <$> g.contributors t := by
  rw [contributors_eq_map, contributors_eq_map]
  exact h.found_expand h.staticClosure t

/-! What is walked -/

theorem walkEdge {onPath : List String} {chain : Chain}
    (deeper : ∀ onPath chain, g'.walkFrom depth onPath (chain.mapTargets change) =
      List.map (Chain.mapTargets change) <$> g.walkFrom depth onPath chain) :
    g'.walkEdge depth onPath (chain.mapTargets change) edge =
      List.map (Chain.mapTargets change) <$> g.walkEdge depth onPath chain edge := by
  rw [Graph.walkEdge, Graph.walkEdge, Chain.last_mapTargets, h.follow, bind_map_left, map_bind]
  congr 1
  funext member
  rw [h.keeps.id, Chain.extend_mapTargets, deeper]
  split <;> rfl

theorem walkFrom (onPath : List String) (chain : Chain) :
    g'.walkFrom depth onPath (chain.mapTargets change) =
      List.map (Chain.mapTargets change) <$> g.walkFrom depth onPath chain := by
  induction depth generalizing onPath chain with
  | zero =>
    rw [walkFrom_zero, walkFrom_zero, Chain.last_mapTargets, h.keeps.id, Chain.mapTargets,
      h.keeps.id]
    rfl
  | succ depth ih =>
    have hmembers : (change chain.last).memberEdges = chain.last.memberEdges := by
      rw [Target.memberEdges, h.keeps.deps, Target.memberEdges]
    rw [walkFrom_succ_eq_map, walkFrom_succ_eq_map, Chain.last_mapTargets, hmembers,
      Refusal.mapM_map_result fun _ _ => h.walkEdge ih, Functor.map_map, Functor.map_map]
    simp only [List.map_cons, List.map_flatten]

theorem walk (root : Target) :
    g'.walk (change root) = List.map (Chain.mapTargets change) <$> g.walk root := by
  rw [Graph.walk, Graph.walk, h.size, h.keeps.id]
  exact h.walkFrom [root.id] ⟨root, []⟩

theorem mapM_walk (roots : List Target) : (roots.map change).mapM g'.walk =
    List.map (List.map (Chain.mapTargets change)) <$> roots.mapM g.walk := by
  rw [List.mapM_map]
  exact Refusal.mapM_map_result fun root _ => h.walk root

end Mirrors

end Graph

end LicenseNotice
