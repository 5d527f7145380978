import LicenseNotice.Proofs.Graph.Links
import LicenseNotice.Proofs.Refusal
import LicenseNotice.Resolve.Shipped

/-! # What ships

The breadth-first list holds what ships with the roots and nothing else. It is made exactly when
every edge of what ships names a target and no leaf that ships has members; otherwise the failure
reports such an edge. The limit on the search is never reached, since the targets still to visit
and the ids not yet queued are together never more than it.
-/

namespace LicenseNotice

set_option autoImplicit false

def Target.WellPlaced (t : Target) : Prop :=
  t.kind = .leaf → ∀ edge ∈ t.deps, edge.linkage ≠ .container

namespace Graph

open Relation (ReflTransGen)

section Relations

variable (g : Graph)

/-- The edge leads somewhere; a member edge belongs to a container and leads to a known id. -/
def EdgePassed (t : Target) (known : List String) (edge : Edge) : Prop :=
  ∃ dep, g.get? edge.dependency = some dep ∧
    (edge.linkage = .container → t.isContainer ∧ dep.id ∈ known)

/-- `e` reports a member edge of a leaf. -/
def Misplaces (t : Target) (e : ResolveError) : Prop :=
  t.kind = .leaf ∧ ∃ dep, g.Links [.container] t dep ∧ e = .malformedEdge t.id dep.id

/-- How a frontier grows by targets of `P`. -/
structure Frontier.Extends (P : Target → Prop) (past now : Frontier) : Prop where
  fresh : ∃ fresh, now.pending = past.pending ++ fresh ∧
    now.queued = (fresh.map (·.id)).reverse ++ past.queued ∧ ∀ u ∈ fresh, P u
  room : g.unseen now.queued + now.pending.length ≤ g.unseen past.queued + past.pending.length

end Relations

variable {g : Graph} {P : Target → Prop} {past now : Frontier} {t u : Target} {edge : Edge}
  {e : ResolveError} {roots : List String} {out : List Target} {limit : Nat}

theorem EdgePassed.mono {known more : List String} (hsub : known ⊆ more)
    (h : g.EdgePassed t known edge) : g.EdgePassed t more edge := by
  obtain ⟨dep, hget, hmember⟩ := h
  exact ⟨dep, hget, fun hl => ⟨(hmember hl).1, hsub (hmember hl).2⟩⟩

theorem isContainer_eq_false : t.isContainer = false ↔ t.kind = .leaf := by
  cases h : t.kind <;> simp [Target.isContainer, h]

namespace Frontier

namespace Extends

protected theorem refl (now : Frontier) : Extends g P now now :=
  ⟨⟨[], by simp⟩, Nat.le_refl _⟩

protected theorem trans {middle : Frontier} (h₁ : Extends g P past middle)
    (h₂ : Extends g P middle now) : Extends g P past now := by
  obtain ⟨⟨first, hpending, hqueued, hfirst⟩, hroom⟩ := h₁
  obtain ⟨⟨later, hpending', hqueued', hlater⟩, hroom'⟩ := h₂
  refine ⟨⟨first ++ later, ?_, ?_, ?_⟩, Nat.le_trans hroom' hroom⟩
  · rw [hpending', hpending, List.append_assoc]
  · rw [hqueued', hqueued, List.map_append, List.reverse_append, List.append_assoc]
  · exact fun u hu => (List.mem_append.mp hu).elim (hfirst u) (hlater u)

theorem queued (h : Extends g P past now) : past.queued ⊆ now.queued := by
  obtain ⟨fresh, _, hqueued, _⟩ := h.fresh
  exact hqueued ▸ List.subset_append_right _ _

end Extends

theorem mem_queued_enqueue (frontier : Frontier) (t : Target) : t.id ∈ (frontier.enqueue t).queued := by
  rw [enqueue]
  split
  case isTrue h => exact h
  case isFalse => exact List.mem_cons_self

theorem enqueue_extends (hP : P t) (ht : t ∈ g.targets) (frontier : Frontier) :
    Extends g P frontier (frontier.enqueue t) := by
  rw [enqueue]
  split
  case isTrue => exact .refl _
  case isFalse h =>
    have hless := unseen_cons_lt ht h
    refine ⟨⟨[t], rfl, rfl, by simpa using hP⟩, ?_⟩
    simp only [List.length_append, List.length_singleton]
    omega

/-- The search starts with the roots, each id once. -/
theorem ofRoots_extends {targets : List Target} (hP : ∀ t ∈ targets, P t ∧ t ∈ g.targets) :
    Extends g P {} (ofRoots targets) ∧ ∀ t ∈ targets, t.id ∈ (ofRoots targets).queued := by
  have hfold : ∀ frontier : Frontier, Extends g P frontier (targets.foldl enqueue frontier) ∧
      ∀ t ∈ targets, t.id ∈ (targets.foldl enqueue frontier).queued := by
    induction targets with
    | nil => exact fun frontier => ⟨.refl frontier, nofun⟩
    | cons t rest ih =>
      intro frontier
      obtain ⟨⟨ht, hmem⟩, hrest⟩ := List.forall_mem_cons.mp hP
      obtain ⟨hextends, hqueued⟩ := ih hrest (frontier.enqueue t)
      exact ⟨(enqueue_extends ht hmem frontier).trans hextends, List.forall_mem_cons.mpr
        ⟨hextends.queued (mem_queued_enqueue frontier t), hqueued⟩⟩
  exact hfold {}

end Frontier

/-- Everything a passed edge can have done. -/
theorem passEdge_ok (h : g.passEdge t past edge = .ok now) :
    ∃ dep, g.get? edge.dependency = some dep ∧
      ((edge.linkage ≠ .container ∧ now = past) ∨
       (edge.linkage = .container ∧ t.isContainer ∧ now = past.enqueue dep)) := by
  obtain ⟨dep, hdep, h⟩ := Refusal.bind_eq_ok.mp h
  refine ⟨dep, follow_eq_ok.mp hdep, ?_⟩
  split at h
  case isTrue hl =>
    cases h
    exact .inl ⟨hl, rfl⟩
  case isFalse hl =>
    split at h
    case isTrue hc =>
      cases h
      exact .inr ⟨not_not.mp hl, hc, rfl⟩
    case isFalse => cases h

theorem passEdge_error (hedge : edge ∈ t.deps) (h : g.passEdge t past edge = .error e) :
    g.Dangles t e ∨ g.Misplaces t e := by
  rcases Refusal.bind_eq_error.mp h with h | ⟨dep, hdep, h⟩
  · exact .inl ⟨edge, hedge, follow_eq_error.mp h⟩
  · split at h
    case isTrue => cases h
    case isFalse hl =>
      split at h
      case isTrue => cases h
      case isFalse hc =>
        cases h
        have hleaf := isContainer_eq_false.mp (Bool.eq_false_iff.mpr hc)
        have hlink : g.Links [.container] t dep :=
          ⟨edge, hedge, by simpa using hl, follow_eq_ok.mp hdep⟩
        exact .inr ⟨hleaf, dep, hlink, rfl⟩

section Search

variable (closed : ∀ u dep, P u → g.Links [.container] u dep → P dep)

include closed

theorem passEdges_ok (hP : P t) {edges : List Edge} (hsub : edges ⊆ t.deps)
    (h : edges.foldlM (g.passEdge t) past = .ok now) :
    past.Extends g P now ∧ ∀ edge ∈ edges, g.EdgePassed t now.queued edge := by
  refine Refusal.foldlM_ok (R := Frontier.Extends g P)
    (D := fun edge now => g.EdgePassed t now.queued edge)
    .refl .trans (fun hextends hpassed => hpassed.mono hextends.queued) ?_ h
  intro edge hedge past now hstep
  obtain ⟨dep, hget, ⟨hl, rfl⟩ | ⟨hl, hcontainer, rfl⟩⟩ := passEdge_ok hstep
  · exact ⟨.refl _, dep, hget, fun hc => absurd hc hl⟩
  · have hdep := closed t dep hP ⟨edge, hsub hedge, by simp [hl], hget⟩
    exact ⟨Frontier.enqueue_extends hdep (mem_targets_of_get? hget) past,
      dep, hget, fun _ => ⟨hcontainer, Frontier.mem_queued_enqueue past dep⟩⟩

theorem passEdges_pending (hP : P t) (hpending : ∀ u ∈ past.pending, P u)
    (h : t.deps.foldlM (g.passEdge t) past = .ok now) : ∀ u ∈ now.pending, P u := by
  obtain ⟨fresh, hmore, _, hfresh⟩ := (passEdges_ok closed hP (fun _ hu => hu) h).1.fresh
  intro u hu
  rw [hmore] at hu
  exact (List.mem_append.mp hu).elim (hpending u) (hfresh u)

/-- A finished search has visited what was pending, and each edge it passed leads to what was queued
before or has been visited as well. -/
theorem shippedFrom_ok (hP : ∀ u ∈ past.pending, P u) (h : g.shippedFrom limit past = .ok out) :
    past.pending ⊆ out ∧ ∀ u ∈ out, P u ∧
      ∀ edge ∈ u.deps, g.EdgePassed u (past.queued ++ out.map (·.id)) edge := by
  induction limit generalizing past out with
  | zero =>
    obtain ⟨queued, _ | ⟨t, pending⟩⟩ := past
    · cases h
      exact ⟨fun _ hu => hu, nofun⟩
    · cases h
  | succ limit ih =>
    obtain ⟨queued, _ | ⟨t, pending⟩⟩ := past
    · cases h
      exact ⟨fun _ hu => hu, nofun⟩
    · obtain ⟨middle, hmiddle, h⟩ := Refusal.bind_eq_ok.mp h
      obtain ⟨later, hlater, rfl⟩ := Refusal.bind_pure_eq_ok.mp h
      obtain ⟨ht, hpending⟩ := List.forall_mem_cons.mp hP
      obtain ⟨hextends, hpassed⟩ := passEdges_ok closed ht (fun _ hu => hu) hmiddle
      obtain ⟨fresh, hmore, hqueued, _⟩ := hextends.fresh
      obtain ⟨hvisited, hout⟩ := ih (passEdges_pending closed ht hpending hmiddle) hlater
      -- What was queued on the way is pending in the rest of the search, hence visited by it.
      have hknown : middle.queued ++ later.map (·.id) ⊆ queued ++ (t :: later).map (·.id) := by
        have hnew : fresh.map (·.id) ⊆ later.map (·.id) := by
          apply List.map_subset
          exact fun u hu => hvisited (hmore ▸ List.mem_append_right _ hu)
        intro id hid
        simp only [hqueued, List.mem_append, List.mem_reverse, List.map_cons, List.mem_cons] at hid ⊢
        rcases hid with (hid | hid) | hid
        · exact .inr (.inr (hnew hid))
        · exact .inl hid
        · exact .inr (.inr hid)
      constructor
      · refine List.cons_subset_cons _ fun u hu => hvisited ?_
        exact hmore ▸ List.mem_append_left _ hu
      · refine List.forall_mem_cons.mpr ⟨⟨ht, fun edge hedge => ?_⟩, fun u hu => ?_⟩
        · exact (hpassed edge hedge).mono fun id hid => hknown (List.mem_append_left _ hid)
        · exact ⟨(hout u hu).1, fun edge hedge => ((hout u hu).2 edge hedge).mono hknown⟩

theorem shippedFrom_error (hP : ∀ u ∈ past.pending, P u)
    (room : g.unseen past.queued + past.pending.length ≤ limit)
    (h : g.shippedFrom limit past = .error e) : ∃ u, P u ∧ (g.Dangles u e ∨ g.Misplaces u e) := by
  induction limit generalizing past with
  | zero =>
    obtain ⟨queued, _ | ⟨t, pending⟩⟩ := past
    · cases h
    · simp at room
  | succ limit ih =>
    obtain ⟨queued, _ | ⟨t, pending⟩⟩ := past
    · cases h
    · obtain ⟨ht, hpending⟩ := List.forall_mem_cons.mp hP
      rcases Refusal.bind_eq_error.mp h with h | ⟨middle, hmiddle, h⟩
      · obtain ⟨before, edge, after, _, hsplit, _, hedge⟩ := Refusal.foldlM_error h
        have hmem : edge ∈ t.deps := by simp [hsplit]
        exact ⟨t, ht, passEdge_error hmem hedge⟩
      · have hroom := (passEdges_ok closed ht (fun _ hu => hu) hmiddle).1.room
        simp only [List.length_cons] at hroom room
        exact ih (passEdges_pending closed ht hpending hmiddle) (by omega)
          (Refusal.bind_pure_eq_error.mp h)

end Search

/-! The search from the roots -/

section Roots

variable {targets : List Target} (hroots : roots.mapM g.root = .ok targets)

theorem root_eq_ok {key : String} : g.root key = .ok t ↔ g.get? key = some t := by
  cases h : g.get? key <;> simp [root, h]

include hroots

theorem mem_roots : t ∈ targets ↔ ∃ key ∈ roots, g.get? key = some t := by
  rw [Refusal.mem_of_mapM_eq_ok hroots]
  simp only [root_eq_ok]

theorem ships_of_mem_roots (ht : t ∈ targets) : g.Ships roots t := by
  obtain ⟨key, hkey, hget⟩ := (mem_roots hroots).mp ht
  exact ⟨key, hkey, t, hget, .refl⟩

theorem ofRoots_ships : Frontier.Extends g (g.Ships roots) {} (.ofRoots targets) ∧
    ∀ t ∈ targets, t.id ∈ (Frontier.ofRoots targets).queued :=
  Frontier.ofRoots_extends fun _ ht =>
    ⟨ships_of_mem_roots hroots ht, (ships_of_mem_roots hroots ht).mem_targets⟩

theorem pending_ofRoots : ∀ u ∈ (Frontier.ofRoots targets).pending, g.Ships roots u := by
  obtain ⟨fresh, hpending, _, hfresh⟩ := (ofRoots_ships hroots).1.fresh
  rw [hpending]
  exact hfresh

theorem shipped_error (h : g.shipped targets = .error e) :
    ∃ u, g.Ships roots u ∧ (g.Dangles u e ∨ g.Misplaces u e) := by
  refine shippedFrom_error (fun u dep hu hlink => hu.member hlink) (pending_ofRoots hroots) ?_ h
  have hroom := (ofRoots_ships hroots).1.room
  simpa [unseen_nil] using hroom

section Done

variable (h : g.shipped targets = .ok out)

include h

theorem queued_subset_of_shipped : (Frontier.ofRoots targets).queued ⊆ out.map (·.id) := by
  obtain ⟨hpending, _⟩ := shippedFrom_ok (fun u dep hu hlink => hu.member hlink)
    (pending_ofRoots hroots) h
  obtain ⟨fresh, hfresh, hqueued, _⟩ := (ofRoots_ships hroots).1.fresh
  intro id hid
  simp only [hqueued, List.append_nil, List.mem_reverse, List.mem_map] at hid
  obtain ⟨u, hu, rfl⟩ := hid
  exact List.mem_map_of_mem (hpending (by simpa [hfresh] using hu))

theorem edgePassed_of_shipped (hu : u ∈ out) :
    g.Ships roots u ∧ ∀ edge ∈ u.deps, g.EdgePassed u (out.map (·.id)) edge := by
  obtain ⟨_, hout⟩ := shippedFrom_ok (fun u dep hu hlink => hu.member hlink)
    (pending_ofRoots hroots) h
  obtain ⟨hships, hedges⟩ := hout u hu
  refine ⟨hships, fun edge hedge => (hedges edge hedge).mono ?_⟩
  exact List.append_subset.mpr ⟨queued_subset_of_shipped hroots h, fun _ hid => hid⟩

theorem mem_shipped_of_id (hsole : g.SoleOfId roots u) (hid : u.id ∈ out.map (·.id)) : u ∈ out := by
  obtain ⟨v, hv, hvu⟩ := List.mem_map.mp hid
  exact hsole v (edgePassed_of_shipped hroots h hv).1 hvu ▸ hv

theorem root_mem_shipped {key : String} (hkey : key ∈ roots) (hget : g.get? key = some u)
    (hsole : g.SoleOfId roots u) : u ∈ out := by
  have hroot := (mem_roots hroots).mpr ⟨key, hkey, hget⟩
  exact mem_shipped_of_id hroots h hsole
    (queued_subset_of_shipped hroots h ((ofRoots_ships hroots).2 u hroot))

theorem member_mem_shipped (hlink : g.Links [.container] t u) (ht : t ∈ out)
    (hsole : g.SoleOfId roots u) : u ∈ out := by
  obtain ⟨edge, hedge, hl, hget⟩ := hlink
  obtain ⟨dep, hget', hmember⟩ := (edgePassed_of_shipped hroots h ht).2 edge hedge
  cases hget.symm.trans hget'
  exact mem_shipped_of_id hroots h hsole (hmember (List.mem_singleton.mp hl)).2

theorem edgesFound_of_shipped (hu : u ∈ out) : g.EdgesFound u ∧ u.WellPlaced := by
  obtain ⟨-, hedges⟩ := edgePassed_of_shipped hroots h hu
  refine ⟨fun edge hedge => ?_, fun hleaf edge hedge hl => ?_⟩
  · obtain ⟨dep, hget, -⟩ := hedges edge hedge
    exact contains_of_get? hget
  · obtain ⟨_, _, hmember⟩ := hedges edge hedge
    have hcontainer := (hmember hl).1
    rw [isContainer_eq_false.mpr hleaf] at hcontainer
    cases hcontainer

theorem mem_shipped (hg : g.KeyedById) : u ∈ out ↔ g.Ships roots u := by
  constructor
  · exact fun hu => (edgePassed_of_shipped hroots h hu).1
  · rintro ⟨key, hkey, root, hget, hreach⟩
    have hsole : ∀ v, g.Ships roots v → g.SoleOfId roots v := fun _ => hg.soleOfId
    have hroot : g.Ships roots root := ⟨key, hkey, root, hget, .refl⟩
    induction hreach with
    | refl => exact root_mem_shipped hroots h hkey hget (hsole root hroot)
    | tail hreach hlink ih =>
      have hships : g.Ships roots _ := ⟨key, hkey, root, hget, hreach⟩
      exact member_mem_shipped hroots h hlink ih (hsole _ (hships.member hlink))

end Done

theorem exists_shipped_iff (hg : g.KeyedById) : (∃ out, g.shipped targets = .ok out) ↔
    ∀ u, g.Ships roots u → g.EdgesFound u ∧ u.WellPlaced := by
  constructor
  · rintro ⟨out, h⟩ u hu
    exact edgesFound_of_shipped hroots h ((mem_shipped hroots h hg).mpr hu)
  · intro h
    apply Refusal.exists_ok_of_ne_error
    intro e he
    obtain ⟨u, hu, hdangles | ⟨hleaf, dep, ⟨edge, hedge, hl, _⟩, _⟩⟩ := shipped_error hroots he
    · exact (h u hu).1.not_dangles e hdangles
    · exact (h u hu).2 hleaf edge hedge (List.mem_singleton.mp hl)

end Roots

end Graph

end LicenseNotice
