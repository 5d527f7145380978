import Mathlib.Data.List.Nodup
import Mathlib.Data.List.Perm.Subperm
import LicenseNotice.Proofs.Resolve.Success

/-! # Termination

Every traversal runs under a bound. Two runs agree whenever both bounds cover the ids that are left
to meet, so the bounds given here only stand for running to the end: a larger one changes nothing,
and no failure says that one was used up. What is counted are ids, and the keys of the graph play no
part in it.
-/

namespace LicenseNotice.Graph

set_option autoImplicit false

open Relation (ReflTransGen)

/-- A run under `bound` has come to its end: more room changes nothing, and the room was enough. -/
def Completes {α : Type} (run : Nat → Except ResolveError α) (bound : Nat) : Prop :=
  ∀ limit, bound ≤ limit → run limit = run bound ∧
    ∀ start reached, run limit ≠ .error (.cycleDetected start reached)

/-- One call of a walk leads to another: the ids on the path and the chain so far go on by a member
that is not on the path. -/
def Calls (g : Graph) (call next : List String × Chain) : Prop :=
  ∃ edge ∈ call.2.last.memberEdges, ∃ member, g.get? edge.dependency = some member ∧
    member.id ∉ call.1 ∧ next = (member.id :: call.1, call.2.extend ⟨edge, member⟩)

variable {g : Graph} {linked : Target → Except ResolveError (List Target)} {depth deeper : Nat}
  {roots : List String} {t u root : Target} {e : ResolveError}

theorem unseen_le_size (ids : List String) : g.unseen ids ≤ g.size :=
  unseen_nil g ▸ unseen_anti (List.nil_subset ids)

theorem Dangles.ne_cycleDetected (h : g.Dangles t e) (start reached : String) :
    e ≠ .cycleDetected start reached := by
  obtain ⟨_, _, _, rfl⟩ := h
  nofun

theorem Misplaces.ne_cycleDetected (h : g.Misplaces t e) (start reached : String) :
    e ≠ .cycleDetected start reached := by
  obtain ⟨_, _, _, rfl⟩ := h
  nofun

/-! The search for what ships -/

theorem shippedFrom_eq_of_room {limit larger : Nat} {past : Frontier}
    (room : g.unseen past.queued + past.pending.length ≤ limit)
    (room' : g.unseen past.queued + past.pending.length ≤ larger) :
    g.shippedFrom limit past = g.shippedFrom larger past := by
  induction limit generalizing past larger with
  | zero =>
    obtain ⟨queued, _ | ⟨t, pending⟩⟩ := past
    · cases larger <;> rfl
    · simp at room
  | succ limit ih =>
    obtain ⟨queued, _ | ⟨t, pending⟩⟩ := past
    · cases larger <;> rfl
    · simp only [List.length_cons] at room room'
      obtain ⟨larger, rfl⟩ : ∃ n, larger = n + 1 := ⟨larger - 1, by omega⟩
      rw [shippedFrom, shippedFrom]
      apply Refusal.bind_congr_ok
      intro middle hmiddle
      have hextends := (passEdges_ok (P := fun _ => True) (fun _ _ _ _ => trivial) trivial
        (fun _ h => h) hmiddle).1
      have hroom := hextends.room
      simp only at hroom
      have hlater : g.shippedFrom limit middle = g.shippedFrom larger middle :=
        ih (by omega) (by omega)
      rw [hlater]

theorem shipped_completes {targets : List Target} (hroots : roots.mapM g.root = .ok targets) :
    Completes (g.shippedFrom · (.ofRoots targets)) g.size := by
  have hroom := (ofRoots_ships hroots).1.room
  simp only [unseen_nil, List.length_nil, Nat.add_zero] at hroom
  intro limit hlimit
  refine ⟨shippedFrom_eq_of_room (by omega) hroom, fun start reached h => ?_⟩
  obtain ⟨u, -, hfault | hfault⟩ := shippedFrom_error (P := fun _ => True)
    (fun _ _ _ _ => trivial) (fun _ _ => trivial) (by omega) h
  · exact hfault.ne_cycleDetected start reached rfl
  · exact hfault.ne_cycleDetected start reached rfl

/-! The expansions -/

theorem visited_subset_of_expandEdge {past now : Expansion} {edge : Edge}
    (h : g.expandEdge linked depth t past edge = .ok now) : past.visited ⊆ now.visited := by
  obtain ⟨dep, -, ⟨-, h⟩ | ⟨-, found, -, rfl⟩ | ⟨-, rfl⟩⟩ := expandEdge_ok h
  · exact (expand_ok (P := fun _ => True) (fun _ _ _ _ => trivial) trivial h).1.visited
  · exact fun _ hid => hid
  · exact fun _ hid => hid

theorem expand_eq_of_room {past : Expansion} (ht : t ∈ g.targets)
    (room : g.unseen past.visited ≤ depth) (room' : g.unseen past.visited ≤ deeper) :
    g.expand linked depth past t = g.expand linked deeper past t := by
  induction depth generalizing past t deeper with
  | zero =>
    by_cases hid : t.id ∈ past.visited
    · rw [expand_of_visited hid, expand_of_visited hid]
    · have hless := unseen_cons_lt ht hid
      omega
  | succ depth ih =>
    by_cases hid : t.id ∈ past.visited
    · rw [expand_of_visited hid, expand_of_visited hid]
    · have hless := unseen_cons_lt ht hid
      obtain ⟨deeper, rfl⟩ : ∃ n, deeper = n + 1 := ⟨deeper - 1, by omega⟩
      rw [expand_succ hid, expand_succ hid]
      -- The room suffices for every edge, since ids visited on the way stay visited.
      refine Refusal.foldlM_congr_of_inv (I := fun now => t.id :: past.visited ⊆ now.visited)
        (fun edge _ now next hnow hnext => ?_) (fun edge _ now hnow => ?_) (fun _ h => h)
      · exact List.Subset.trans hnow (visited_subset_of_expandEdge hnext)
      · have hseen := unseen_anti (g := g) hnow
        refine Refusal.bind_congr_ok fun dep hdep => ?_
        have hdeeper : g.expand linked depth now dep = g.expand linked deeper now dep :=
          ih (mem_targets_of_get? (follow_eq_ok.mp hdep)) (by omega) (by omega)
        cases edge.linkage <;> simp only [hdeeper]

theorem expand_completes (ht : t ∈ g.targets) (past : Expansion)
    (hlinked : ∀ u ∈ g.targets, ∀ start reached, linked u ≠ .error (.cycleDetected start reached)) :
    Completes (g.expand linked · past t) g.size := by
  have hroom := unseen_le_size (g := g) past.visited
  intro limit hlimit
  refine ⟨expand_eq_of_room ht (by omega) hroom, fun start reached h => ?_⟩
  obtain ⟨u, -, hdangles | ⟨dep, hlink, h⟩⟩ := expand_error (P := (· ∈ g.targets))
    (fun _ _ _ hlink => hlink.mem_targets) (fun _ hu => hu) ht (by omega) h
  · exact hdangles.ne_cycleDetected start reached rfl
  · exact hlinked dep hlink.mem_targets start reached h

theorem staticClosure_ne_cycleDetected (ht : t ∈ g.targets) (start reached : String) :
    g.staticClosure t ≠ .error (.cycleDetected start reached) := by
  intro h
  obtain ⟨o, -, hdangles⟩ := staticClosure_error ht h
  exact hdangles.ne_cycleDetected start reached rfl

/-! The walks -/

theorem walkFrom_eq_of_room {onPath : List String} {chain : Chain}
    (room : g.unseen onPath < depth) (room' : g.unseen onPath < deeper) :
    g.walkFrom depth onPath chain = g.walkFrom deeper onPath chain := by
  induction depth generalizing onPath chain deeper with
  | zero => omega
  | succ depth ih =>
    obtain ⟨deeper, rfl⟩ : ∃ n, deeper = n + 1 := ⟨deeper - 1, by omega⟩
    rw [walkFrom, walkFrom]
    refine congrArg (· >>= _) (Refusal.mapM_congr fun edge _ => ?_)
    refine Refusal.bind_congr_ok fun member hmember => ?_
    split
    case isTrue => rfl
    case isFalse hid =>
      have hless := unseen_cons_lt (mem_targets_of_get? (follow_eq_ok.mp hmember)) hid
      exact ih (by omega) (by omega)

theorem unseen_root_lt (hroot : root ∈ g.targets) : g.unseen [root.id] < g.size :=
  unseen_nil g ▸ unseen_cons_lt hroot List.not_mem_nil

theorem walk_completes (hroot : root ∈ g.targets) :
    Completes (g.walkFrom · [root.id] ⟨root, []⟩) g.size := by
  have hroom := unseen_root_lt hroot
  intro limit hlimit
  refine ⟨walkFrom_eq_of_room (by omega) hroom, fun start reached h => ?_⟩
  obtain ⟨u, -, hdangles⟩ := walkFrom_error (P := fun _ => True) (fun _ _ _ _ => trivial) trivial
    (by omega) h
  exact hdangles.ne_cycleDetected start reached rfl

/-- The chains that a walk lists are those it is called for. -/
theorem mem_walkFrom_iff_calls {onPath : List String} {chain : Chain} {chains : List Chain}
    (h : g.walkFrom depth onPath chain = .ok chains) (c : Chain) :
    c ∈ chains ↔ ∃ path, ReflTransGen g.Calls (onPath, chain) (path, c) := by
  induction depth generalizing onPath chain chains c with
  | zero => cases h
  | succ depth ih =>
    rw [mem_walkFrom_succ (fun _ _ _ hwalk => ih hwalk) h]
    constructor
    · rintro (rfl | ⟨edge, hedge, member, hget, hid, path, hcalls⟩)
      · exact ⟨onPath, .refl⟩
      · exact ⟨path, .head ⟨edge, hedge, member, hget, hid, rfl⟩ hcalls⟩
    · rintro ⟨path, hcalls⟩
      rcases hcalls.cases_head with heq | ⟨_, ⟨edge, hedge, member, hget, hid, rfl⟩, hcalls⟩
      · exact .inl (Prod.mk.inj heq).2.symm
      · exact .inr ⟨edge, hedge, member, hget, hid, path, hcalls⟩

/-- The ids on the path differ and are ids of the graph, and there is one for the root and for each
step. -/
theorem path_of_calls (hroot : root ∈ g.targets) {call : List String × Chain}
    (h : ReflTransGen g.Calls ([root.id], ⟨root, []⟩) call) :
    call.1.Nodup ∧ call.1 ⊆ g.targets.map (·.id) ∧ call.1.length = call.2.steps.length + 1 := by
  induction h with
  | refl =>
    refine ⟨List.nodup_singleton _, ?_, rfl⟩
    exact List.cons_subset.mpr ⟨List.mem_map_of_mem hroot, List.nil_subset _⟩
  | tail _ hstep ih =>
    obtain ⟨edge, -, member, hget, hid, rfl⟩ := hstep
    obtain ⟨hnodup, hsub, hlength⟩ := ih
    refine ⟨List.nodup_cons.mpr ⟨hid, hnodup⟩, ?_, ?_⟩
    · exact List.cons_subset.mpr ⟨List.mem_map_of_mem (mem_targets_of_get? hget), hsub⟩
    · simp [Chain.extend, hlength]

theorem steps_lt_size_of_calls (hroot : root ∈ g.targets) {call : List String × Chain}
    (h : ReflTransGen g.Calls ([root.id], ⟨root, []⟩) call) : call.2.steps.length < g.size := by
  obtain ⟨hnodup, hsub, hlength⟩ := path_of_calls hroot h
  have hle := (List.subperm_of_subset hnodup hsub).length_le
  rw [List.length_map, ← size_eq_length_targets, hlength] at hle
  omega

/-! The whole resolution -/

theorem resolve_ne_cycleDetected (start reached : String) :
    g.resolve roots ≠ .error (.cycleDetected start reached) := by
  intro h
  have hne : roots ≠ [] := by
    rintro rfl
    cases h
  rcases resolve_error hne h with h | ⟨targets, hroots, h | ⟨shipped, hshipped, h | h⟩⟩
  · obtain ⟨_, _, he⟩ := roots_eq_error.mp h
    cases he
  · exact (shipped_completes hroots g.size (Nat.le_refl _)).2 start reached h
  · obtain ⟨t, ht, h⟩ := attachmentTable_error h
    obtain ⟨o, -, hdangles⟩ :=
      attachments_error (edgePassed_of_shipped hroots hshipped ht).1.mem_targets h
    exact hdangles.ne_cycleDetected start reached rfl
  · obtain ⟨before, root, after, rfl, -, h⟩ := Refusal.mapM_eq_error.mp h
    have hroot := (ships_of_mem_roots hroots (t := root) (by simp)).mem_targets
    exact (walk_completes hroot g.size (Nat.le_refl _)).2 start reached h

/-- Every traversal of every graph ends, whatever its keys are: the search for what ships, both
kinds of expansion from any state, and the walks, whose calls are never as deep as the graph is
large. No resolution reports a cycle. -/
theorem resolve_terminates (g : Graph) (roots : List String) :
    (∀ targets, roots.mapM g.root = .ok targets →
      Completes (g.shippedFrom · (.ofRoots targets)) g.size) ∧
    (∀ t ∈ g.targets, ∀ past : Expansion, Completes (g.expand (fun _ => .ok []) · past t) g.size ∧
      Completes (g.expand g.staticClosure · past t) g.size) ∧
    (∀ root ∈ g.targets, Completes (g.walkFrom · [root.id] ⟨root, []⟩) g.size ∧
      (∀ call, ReflTransGen g.Calls ([root.id], ⟨root, []⟩) call →
        call.2.steps.length < g.size) ∧
      ∀ chains, g.walk root = .ok chains → ∀ chain, chain ∈ chains ↔
        ∃ path, ReflTransGen g.Calls ([root.id], ⟨root, []⟩) (path, chain)) ∧
    ∀ start reached, g.resolve roots ≠ .error (.cycleDetected start reached) := by
  refine ⟨fun targets hroots => shipped_completes hroots, fun t ht past => ⟨?_, ?_⟩,
    fun root hroot => ⟨walk_completes hroot, fun _ => steps_lt_size_of_calls hroot,
      fun _ hwalk => mem_walkFrom_iff_calls hwalk⟩, resolve_ne_cycleDetected⟩
  · exact expand_completes ht past fun _ _ _ _ => nofun
  · exact expand_completes ht past fun _ hu => staticClosure_ne_cycleDetected hu

/-- Two targets of one id, under other keys, with cycles of members and of static links. -/
def tangle : Graph where
  outputRoot := "out"
  entries :=
    [("first", { id := "zip", kind := .container, installName := "first.zip"
                 deps := [⟨"first", .container, none⟩, ⟨"inner", .container, none⟩] }),
     ("second", { id := "zip", kind := .container, installName := "second.zip"
                  deps := [⟨"inner", .container, none⟩, ⟨"second", .static, none⟩] }),
     ("inner", { id := "box", kind := .container, installName := "box"
                 deps := [⟨"second", .container, none⟩, ⟨"inner", .static, none⟩,
                   ⟨"first", .dynamic, none⟩] })]

theorem resolve_terminates_tangle : ¬ tangle.KeyedById ∧
    ∃ targets, ["first", "second"].mapM tangle.root = .ok targets ∧
      Completes (tangle.shippedFrom · (.ofRoots targets)) 3 ∧
      ∃ t ∈ tangle.targets, Completes (tangle.expand (fun _ => .ok []) · {} t) 3 ∧
        Completes (tangle.expand tangle.staticClosure · {} t) 3 ∧
        Completes (tangle.walkFrom · [t.id] ⟨t, []⟩) 3 ∧
        ∃ chains, tangle.walk t = .ok chains ∧ chains.length = 2 ∧
          ∀ chain ∈ chains, chain.steps.length < 3 := by
  have hkeys : ¬ tangle.KeyedById := fun h => absurd (h.1 _ List.mem_cons_self) (by decide)
  obtain ⟨hships, hexpands, hwalks, -⟩ := resolve_terminates tangle ["first", "second"]
  obtain ⟨hcompletes, hcalls, hlisted⟩ := hwalks _ List.mem_cons_self
  obtain ⟨hstatic, hdynamic⟩ := hexpands _ List.mem_cons_self {}
  refine ⟨hkeys, _, rfl, hships _ rfl, _, List.mem_cons_self, hstatic, hdynamic, hcompletes, _, rfl,
    rfl, fun chain hchain => ?_⟩
  obtain ⟨path, hpath⟩ := (hlisted _ rfl chain).mp hchain
  exact hcalls _ hpath

end LicenseNotice.Graph
