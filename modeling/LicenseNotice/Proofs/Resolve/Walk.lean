import LicenseNotice.Proofs.Graph.Links
import LicenseNotice.Proofs.Refusal
import LicenseNotice.Resolve.Walk

/-! # What a walk lists

A walk lists exactly the chains from its root on which no id repeats. It fails only at a member
edge that names nothing: the ids on the path use up the targets of the graph before the depth runs
out.
-/

namespace LicenseNotice

set_option autoImplicit false

open Relation (ReflTransGen)

namespace Chain

theorem last_cons (root : Target) (step : Step) (rest : List Step) :
    (Chain.mk root (step :: rest)).last = (Chain.mk step.member rest).last := by
  cases h : rest.getLast? <;> simp [last, List.getLast?_cons, h]

@[simp] theorem last_extend (chain : Chain) (step : Step) :
    (chain.extend step).last = step.member := by
  simp [last, extend]

theorem last_mem_targets (chain : Chain) : chain.last ∈ chain.targets := by
  obtain ⟨root, steps⟩ := chain
  induction steps generalizing root with
  | nil => exact List.mem_cons_self
  | cons step rest ih =>
    rw [last_cons]
    exact List.mem_cons_of_mem _ (ih step.member)

end Chain

theorem Target.mem_memberEdges {t : Target} {edge : Edge} :
    edge ∈ t.memberEdges ↔ edge ∈ t.deps ∧ edge.linkage = .container := by
  simp [memberEdges]

namespace Graph

section Relations

variable (g : Graph)

/-- Each step takes a member edge of the target before it, the first one of `t`. -/
def Descends : Target → List Step → Prop
  | _, [] => True
  | t, step :: rest => step.edge ∈ t.memberEdges ∧
      g.get? step.edge.dependency = some step.member ∧ Descends step.member rest

/-- A chain of containers through the graph on which no id repeats. -/
def IsChain (chain : Chain) : Prop :=
  g.Descends chain.root chain.steps ∧ (chain.targets.map (·.id)).Nodup

def walkEdge (depth : Nat) (onPath : List String) (chain : Chain) (edge : Edge) :
    Except ResolveError (List Chain) := do
  let member ← g.follow chain.last edge
  if member.id ∈ onPath then
    return []
  else
    g.walkFrom depth (member.id :: onPath) (chain.extend ⟨edge, member⟩)

end Relations

/-- The steps meet no id twice, and none that is on the path already. -/
def Fresh (onPath : List String) (steps : List Step) : Prop :=
  (steps.map (·.member.id)).Nodup ∧ ∀ step ∈ steps, step.member.id ∉ onPath

variable {g : Graph} {depth : Nat} {onPath : List String} {chain : Chain} {t root : Target}
  {chains : List Chain} {edge : Edge} {e : ResolveError}

theorem fresh_cons {step : Step} {rest : List Step} : Fresh onPath (step :: rest) ↔
    step.member.id ∉ onPath ∧ Fresh (step.member.id :: onPath) rest := by
  rw [Fresh, Fresh, List.map_cons, List.nodup_cons, List.forall_mem_cons]
  simp only [List.mem_map, List.mem_cons, not_or, not_exists, not_and]
  constructor
  · rintro ⟨⟨hfirst, hnodup⟩, hstep, hrest⟩
    exact ⟨hstep, hnodup, fun s hs => ⟨hfirst s hs, hrest s hs⟩⟩
  · rintro ⟨hstep, hnodup, hrest⟩
    exact ⟨⟨fun s hs => (hrest s hs).1, hnodup⟩, hstep, fun s hs => (hrest s hs).2⟩

theorem Descends.reaches {steps : List Step} (h : g.Descends t steps) :
    ReflTransGen (g.Links [.container]) t (Chain.mk t steps).last := by
  induction steps generalizing t with
  | nil => exact .refl
  | cons step rest ih =>
    obtain ⟨hedge, hget, hrest⟩ := h
    obtain ⟨hdeps, hl⟩ := Target.mem_memberEdges.mp hedge
    rw [Chain.last_cons]
    exact .head ⟨step.edge, hdeps, by simp [hl], hget⟩ (ih hrest)

theorem walkFrom_zero : g.walkFrom 0 onPath chain =
    .error (.cycleDetected chain.root.id chain.last.id) := rfl

theorem walkFrom_succ_eq_map : g.walkFrom (depth + 1) onPath chain = (chain :: List.flatten ·) <$>
    chain.last.memberEdges.mapM (g.walkEdge depth onPath chain) :=
  bind_pure_comp _ _

theorem walkFrom_succ_eq_ok : g.walkFrom (depth + 1) onPath chain = .ok chains ↔
    ∃ below, chain.last.memberEdges.mapM (g.walkEdge depth onPath chain) = .ok below ∧
      chains = chain :: below.flatten := by
  rw [walkFrom]
  refine Refusal.bind_pure_eq_ok.trans (exists_congr fun below => and_congr_right fun _ => ?_)
  exact eq_comm

theorem walkFrom_succ_eq_error (h : g.walkFrom (depth + 1) onPath chain = .error e) :
    ∃ edge ∈ chain.last.memberEdges, g.walkEdge depth onPath chain edge = .error e := by
  rw [walkFrom] at h
  obtain ⟨before, edge, after, hsplit, _, hedge⟩ :=
    Refusal.mapM_eq_error.mp (Refusal.bind_pure_eq_error.mp h)
  exact ⟨edge, by simp [hsplit], hedge⟩

theorem walkEdge_eq_ok : g.walkEdge depth onPath chain edge = .ok chains ↔
    ∃ member, g.get? edge.dependency = some member ∧
      ((member.id ∈ onPath ∧ chains = []) ∨ (member.id ∉ onPath ∧
        g.walkFrom depth (member.id :: onPath) (chain.extend ⟨edge, member⟩) = .ok chains)) := by
  refine Refusal.bind_eq_ok.trans (exists_congr fun member => and_congr follow_eq_ok ?_)
  by_cases hid : member.id ∈ onPath
  · simp only [hid, if_true, true_and, not_true_eq_false, false_and, or_false]
    exact ⟨fun h => (Except.ok.inj h).symm, fun h => congrArg Except.ok h.symm⟩
  · simp [hid]

section Deeper

-- `P` says what the walks with room for `depth` more steps list.
variable {P : List String → Chain → Chain → Prop}
  (deeper : ∀ onPath chain chains, g.walkFrom depth onPath chain = .ok chains →
    ∀ c, c ∈ chains ↔ P onPath chain c)

include deeper

theorem mem_walkEdge (h : g.walkEdge depth onPath chain edge = .ok chains) (c : Chain) :
    c ∈ chains ↔ ∃ member, g.get? edge.dependency = some member ∧ member.id ∉ onPath ∧
      P (member.id :: onPath) (chain.extend ⟨edge, member⟩) c := by
  obtain ⟨member, hget, ⟨hon, rfl⟩ | ⟨hoff, hwalk⟩⟩ := walkEdge_eq_ok.mp h
  · refine iff_of_false List.not_mem_nil ?_
    rintro ⟨member', hget', hoff, -⟩
    cases hget.symm.trans hget'
    exact hoff hon
  · rw [deeper _ _ _ hwalk]
    constructor
    · exact fun hc => ⟨member, hget, hoff, hc⟩
    · rintro ⟨member', hget', -, hc⟩
      cases hget.symm.trans hget'
      exact hc

/-- A walk lists its own chain and, beyond each member off the path, what the walk from there lists. -/
theorem mem_walkFrom_succ (h : g.walkFrom (depth + 1) onPath chain = .ok chains) (c : Chain) :
    c ∈ chains ↔ c = chain ∨ ∃ edge ∈ chain.last.memberEdges, ∃ member,
      g.get? edge.dependency = some member ∧ member.id ∉ onPath ∧
        P (member.id :: onPath) (chain.extend ⟨edge, member⟩) c := by
  obtain ⟨below, hbelow, rfl⟩ := walkFrom_succ_eq_ok.mp h
  have hedges := Refusal.mem_flatten_of_mapM_eq_ok hbelow fun _ _ _ hlater =>
    mem_walkEdge deeper hlater
  rw [List.mem_cons, hedges]

end Deeper

/-- The chains of a walk are the continuations of `chain` that keep off its path. -/
theorem mem_walkFrom (h : g.walkFrom depth onPath chain = .ok chains) (c : Chain) :
    c ∈ chains ↔ ∃ more, c = ⟨chain.root, chain.steps ++ more⟩ ∧
      g.Descends chain.last more ∧ Fresh onPath more := by
  induction depth generalizing onPath chain chains c with
  | zero =>
    rw [walkFrom_zero] at h
    cases h
  | succ depth ih =>
    rw [mem_walkFrom_succ (fun _ _ _ hwalk => ih hwalk) h]
    constructor
    · rintro (rfl | ⟨edge, hedge, member, hget, hid, more, rfl, hdescends, hfresh⟩)
      · exact ⟨[], by simp, trivial, by simp [Fresh]⟩
      · rw [Chain.last_extend] at hdescends
        exact ⟨⟨edge, member⟩ :: more, by simp [Chain.extend], ⟨hedge, hget, hdescends⟩,
          fresh_cons.mpr ⟨hid, hfresh⟩⟩
    · rintro ⟨_ | ⟨step, more⟩, rfl, hdescends, hfresh⟩
      · exact .inl (by simp)
      · obtain ⟨hedge, hget, hrest⟩ := hdescends
        obtain ⟨hid, hfresh⟩ := fresh_cons.mp hfresh
        refine .inr ⟨step.edge, hedge, step.member, hget, hid, more, by simp [Chain.extend], ?_,
          hfresh⟩
        rw [Chain.last_extend]
        exact hrest

theorem nodup_ids_iff_fresh {steps : List Step} :
    ((Chain.mk root steps).targets.map (·.id)).Nodup ↔ Fresh [root.id] steps := by
  simp only [Chain.targets, List.map_cons, List.map_map, List.nodup_cons, Fresh, List.mem_map,
    List.mem_singleton, Function.comp_def, not_exists, not_and]
  exact and_comm

theorem mem_walk (h : g.walk root = .ok chains) :
    chain ∈ chains ↔ chain.root = root ∧ g.IsChain chain := by
  obtain ⟨r, steps⟩ := chain
  rw [mem_walkFrom h]
  constructor
  · rintro ⟨more, heq, hdescends, hfresh⟩
    cases heq
    exact ⟨rfl, hdescends, nodup_ids_iff_fresh.mpr hfresh⟩
  · rintro ⟨rfl, hdescends, hids⟩
    exact ⟨steps, rfl, hdescends, nodup_ids_iff_fresh.mp hids⟩

theorem walkFrom_error {P : Target → Prop}
    (closed : ∀ u dep, P u → g.Links [.container] u dep → P dep) (hP : P chain.last)
    (room : g.unseen onPath < depth) (h : g.walkFrom depth onPath chain = .error e) :
    ∃ u, P u ∧ g.Dangles u e := by
  induction depth generalizing onPath chain with
  | zero => omega
  | succ depth ih =>
    obtain ⟨edge, hedge, h⟩ := walkFrom_succ_eq_error h
    obtain ⟨hdeps, hl⟩ := Target.mem_memberEdges.mp hedge
    rcases Refusal.bind_eq_error.mp h with h | ⟨member, hmember, h⟩
    · exact ⟨chain.last, hP, edge, hdeps, follow_eq_error.mp h⟩
    · have hget := follow_eq_ok.mp hmember
      split at h
      case isTrue => cases h
      case isFalse hid =>
        have hless := unseen_cons_lt (mem_targets_of_get? hget) hid
        have hdep := closed chain.last member hP ⟨edge, hdeps, by simp [hl], hget⟩
        exact ih ((Chain.last_extend _ _).symm ▸ hdep) (by omega) h

/-- A walk fails only at an edge of a target it reaches. -/
theorem walk_error (hroot : root ∈ g.targets) (h : g.walk root = .error e) :
    ∃ u, ReflTransGen (g.Links [.container]) root u ∧ g.Dangles u e := by
  refine walkFrom_error (fun u dep hu hlink => hu.tail hlink) .refl ?_ h
  have hless := unseen_cons_lt hroot (List.not_mem_nil (a := root.id))
  rwa [unseen_nil] at hless

end Graph

end LicenseNotice
