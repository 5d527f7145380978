import LicenseNotice.Proofs.Graph.Links
import LicenseNotice.Proofs.Refusal
import LicenseNotice.Resolve.Attachment

/-! # What an expansion does

An expansion that succeeds has settled every target it visited: the target is found, each of its
edges leads somewhere, static dependencies are visited in turn, and what dynamic and runtime ones
link is found. One that fails has met an edge that cannot be followed; the depth it is given is
never used up. Both are said for any set of targets that static edges do not leave.
-/

namespace LicenseNotice

set_option autoImplicit false

/-- The state in which the edges of a newly visited target are passed. -/
def Expansion.enter (past : Expansion) (t : Target) : Expansion :=
  ⟨past.found ++ [t], t.id :: past.visited⟩

namespace Graph

section Steps

variable (g : Graph) (linked : Target → Except ResolveError (List Target))

def expandEdge (depth : Nat) (t : Target) (past : Expansion) (edge : Edge) :
    Except ResolveError Expansion := do
  let dep ← g.follow t edge
  match edge.linkage with
  | .static => g.expand linked depth past dep
  | .dynamic | .runtime => return { past with found := past.found ++ (← linked dep) }
  | .toolchain | .container => return past

end Steps

variable {g : Graph} {linked : Target → Except ResolveError (List Target)}
  {depth : Nat} {past now : Expansion} {t u dep : Target} {edge : Edge} {e : ResolveError}

theorem expand_of_visited (h : t.id ∈ past.visited) :
    g.expand linked depth past t = .ok past := by
  rw [expand.eq_def]
  exact if_pos h

theorem expand_zero (h : t.id ∉ past.visited) :
    g.expand linked 0 past t = .error (.cycleDetected t.id t.id) := by
  rw [expand.eq_def]
  exact if_neg h

theorem expand_succ (h : t.id ∉ past.visited) :
    g.expand linked (depth + 1) past t =
      t.deps.foldlM (g.expandEdge linked depth t) (past.enter t) := by
  rw [expand.eq_def]
  exact if_neg h

theorem staticClosure_eq_map (g : Graph) (t : Target) :
    g.staticClosure t = Expansion.found <$> g.expand (fun _ => .ok []) g.size {} t :=
  bind_pure_comp _ _

theorem contributors_eq_map (g : Graph) (t : Target) :
    g.contributors t = Expansion.found <$> g.expand g.staticClosure g.size {} t :=
  bind_pure_comp _ _

/-- Everything a successful step can have done. -/
theorem expandEdge_ok (h : g.expandEdge linked depth t past edge = .ok now) :
    ∃ dep, g.get? edge.dependency = some dep ∧
      ((edge.linkage = .static ∧ g.expand linked depth past dep = .ok now) ∨
       (edge.linkage ∈ Linkage.alongside ∧ ∃ found, linked dep = .ok found ∧
          now = { past with found := past.found ++ found }) ∨
       (edge.linkage ∉ .static :: Linkage.alongside ∧ now = past)) := by
  obtain ⟨dep, hdep, h⟩ := Refusal.bind_eq_ok.mp h
  refine ⟨dep, follow_eq_ok.mp hdep, ?_⟩
  cases hl : edge.linkage <;> rw [hl] at h
  case static => exact .inl ⟨rfl, h⟩
  case dynamic | runtime =>
    obtain ⟨found, hfound, rfl⟩ := Refusal.bind_pure_eq_ok.mp h
    exact .inr (.inl ⟨by simp [Linkage.alongside], found, hfound, rfl⟩)
  case toolchain | container =>
    cases h
    exact .inr (.inr ⟨by simp [Linkage.alongside], rfl⟩)

theorem expandEdge_error (h : g.expandEdge linked depth t past edge = .error e) :
    (g.get? edge.dependency = none ∧ e = .graphIncomplete t.id edge.dependency) ∨
    ∃ dep, g.get? edge.dependency = some dep ∧
      ((edge.linkage = .static ∧ g.expand linked depth past dep = .error e) ∨
       (edge.linkage ∈ Linkage.alongside ∧ linked dep = .error e)) := by
  rcases Refusal.bind_eq_error.mp h with h | ⟨dep, hdep, h⟩
  · exact .inl (follow_eq_error.mp h)
  · refine .inr ⟨dep, follow_eq_ok.mp hdep, ?_⟩
    cases hl : edge.linkage <;> rw [hl] at h
    case static => exact .inl ⟨rfl, h⟩
    case dynamic | runtime =>
      exact .inr ⟨by simp [Linkage.alongside], Refusal.bind_pure_eq_error.mp h⟩
    case toolchain | container => cases h

section Relations

variable (g linked)

/-- The edge leads somewhere, and what it brings in is there. -/
def EdgeSettled (edge : Edge) (now : Expansion) : Prop :=
  ∃ dep, g.get? edge.dependency = some dep ∧ (edge.linkage = .static → dep.id ∈ now.visited) ∧
    (edge.linkage ∈ Linkage.alongside → ∃ found, linked dep = .ok found ∧ found ⊆ now.found)

structure Settled (u : Target) (now : Expansion) : Prop where
  found : u ∈ now.found
  edges : ∀ edge ∈ u.deps, g.EdgeSettled linked edge now

/-- A visited target yields itself and what its dynamic and runtime dependencies link. -/
def Yields (u o : Target) : Prop :=
  o = u ∨ ∃ dep found, g.Links Linkage.alongside u dep ∧ linked dep = .ok found ∧ o ∈ found

/-- `e` comes from an edge of `u`: it dangles, or what it brings in is refused. -/
def Refuses (u : Target) (e : ResolveError) : Prop :=
  g.Dangles u e ∨ ∃ dep, g.Links Linkage.alongside u dep ∧ linked dep = .error e

/-- How an expansion grows that stays among the targets of `P`. -/
structure Expands (P : Target → Prop) (past now : Expansion) : Prop where
  found : past.found ⊆ now.found
  visited : past.visited ⊆ now.visited
  settled : ∀ id ∈ now.visited, id ∈ past.visited ∨ ∃ u, P u ∧ u.id = id ∧ g.Settled linked u now
  yielded : ∀ o ∈ now.found, o ∈ past.found ∨ ∃ u, P u ∧ g.Yields linked u o

end Relations

variable {P : Target → Prop}

section Growth

variable {later : Expansion} (hfound : now.found ⊆ later.found)
  (hvisited : now.visited ⊆ later.visited)

include hfound hvisited

theorem EdgeSettled.mono (h : g.EdgeSettled linked edge now) : g.EdgeSettled linked edge later := by
  obtain ⟨dep, hget, hstatic, hlinked⟩ := h
  refine ⟨dep, hget, fun hl => hvisited (hstatic hl), fun hl => ?_⟩
  obtain ⟨found, hok, hsub⟩ := hlinked hl
  exact ⟨found, hok, List.Subset.trans hsub hfound⟩

theorem Settled.mono (h : g.Settled linked u now) : g.Settled linked u later :=
  ⟨hfound h.found, fun edge hedge => (h.edges edge hedge).mono hfound hvisited⟩

end Growth

namespace Settled

theorem edgesFound (h : g.Settled linked u now) : g.EdgesFound u := by
  intro edge hedge
  obtain ⟨dep, hget, _⟩ := h.edges edge hedge
  exact contains_of_get? hget

theorem visited_of_links (h : g.Settled linked u now) (hlink : g.Links [.static] u dep) :
    dep.id ∈ now.visited := by
  obtain ⟨edge, hedge, hl, hget⟩ := hlink
  obtain ⟨dep', hget', hstatic, _⟩ := h.edges edge hedge
  cases hget.symm.trans hget'
  exact hstatic (List.mem_singleton.mp hl)

theorem found_of_links (h : g.Settled linked u now) (hlink : g.Links Linkage.alongside u dep) :
    ∃ found, linked dep = .ok found ∧ found ⊆ now.found := by
  obtain ⟨edge, hedge, hl, hget⟩ := hlink
  obtain ⟨dep', hget', _, hlinked⟩ := h.edges edge hedge
  cases hget.symm.trans hget'
  exact hlinked hl

end Settled

namespace Expands

protected theorem refl (now : Expansion) : g.Expands linked P now now :=
  ⟨fun _ h => h, fun _ h => h, fun _ h => .inl h, fun _ h => .inl h⟩

protected theorem trans {middle : Expansion} (h₁ : g.Expands linked P past middle)
    (h₂ : g.Expands linked P middle now) : g.Expands linked P past now where
  found := List.Subset.trans h₁.found h₂.found
  visited := List.Subset.trans h₁.visited h₂.visited
  settled id hid := by
    rcases h₂.settled id hid with hid | hsettled
    · refine (h₁.settled id hid).imp_right ?_
      rintro ⟨u, hP, rfl, hu⟩
      exact ⟨u, hP, rfl, hu.mono h₂.found h₂.visited⟩
    · exact .inr hsettled
  yielded o ho := by
    rcases h₂.yielded o ho with ho | hyield
    · exact h₁.yielded o ho
    · exact .inr hyield

end Expands

theorem Expands.of_enter (hP : P t)
    (h : g.Expands linked P (past.enter t) now)
    (hedges : ∀ edge ∈ t.deps, g.EdgeSettled linked edge now) : g.Expands linked P past now where
  found := fun o ho => h.found (List.mem_append_left _ ho)
  visited := fun id hid => h.visited (List.mem_cons_of_mem _ hid)
  settled id hid := by
    have ht : g.Settled linked t now := ⟨h.found (List.mem_append_right _ (by simp)), hedges⟩
    rcases h.settled id hid with hid | hsettled
    · rcases List.mem_cons.mp hid with rfl | hid
      · exact .inr ⟨t, hP, rfl, ht⟩
      · exact .inl hid
    · exact .inr hsettled
  yielded o ho := by
    rcases h.yielded o ho with ho | hyield
    · rcases List.mem_append.mp ho with ho | ho
      · exact .inl ho
      · exact .inr ⟨t, hP, .inl (List.mem_singleton.mp ho)⟩
    · exact .inr hyield

section Runs

variable (closed : ∀ u dep, P u → g.Links [.static] u dep → P dep)

include closed

theorem expandEdge_expands (hP : P t) (hedge : edge ∈ t.deps)
    (deeper : ∀ past t now, P t → g.expand linked depth past t = .ok now →
      g.Expands linked P past now ∧ t.id ∈ now.visited)
    (h : g.expandEdge linked depth t past edge = .ok now) :
    g.Expands linked P past now ∧ g.EdgeSettled linked edge now := by
  obtain ⟨dep, hget, ⟨hl, h⟩ | ⟨hl, found, hfound, rfl⟩ | ⟨hl, rfl⟩⟩ := expandEdge_ok h
  · have hdep := closed t dep hP ⟨edge, hedge, by simp [hl], hget⟩
    obtain ⟨hexpands, hid⟩ := deeper past dep now hdep h
    exact ⟨hexpands, dep, hget, fun _ => hid, fun ha => by simp [hl, Linkage.alongside] at ha⟩
  · refine ⟨⟨List.subset_append_left _ _, fun _ hid => hid, fun _ hid => .inl hid, ?_⟩,
      dep, hget, fun hs => by simp [hs, Linkage.alongside] at hl,
      fun _ => ⟨found, hfound, List.subset_append_right _ _⟩⟩
    intro o ho
    exact (List.mem_append.mp ho).imp_right
      fun ho => ⟨t, hP, .inr ⟨dep, found, ⟨edge, hedge, hl, hget⟩, hfound, ho⟩⟩
  · refine ⟨.refl _, dep, hget, fun hs => ?_, fun ha => ?_⟩
    · exact absurd (hs ▸ List.mem_cons_self) hl
    · exact absurd (List.mem_cons_of_mem _ ha) hl

theorem expandEdges_ok (hP : P t) {edges : List Edge} (hsub : edges ⊆ t.deps)
    (deeper : ∀ past t now, P t → g.expand linked depth past t = .ok now →
      g.Expands linked P past now ∧ t.id ∈ now.visited)
    (h : edges.foldlM (g.expandEdge linked depth t) past = .ok now) :
    g.Expands linked P past now ∧ ∀ edge ∈ edges, g.EdgeSettled linked edge now :=
  Refusal.foldlM_ok (R := g.Expands linked P) (D := g.EdgeSettled linked) .refl .trans
    (fun hexpands hsettled => hsettled.mono hexpands.found hexpands.visited)
    (fun _ hedge _ _ => expandEdge_expands closed hP (hsub hedge) deeper) h

/-- An expansion that succeeds has visited its target and settled all it visited. -/
theorem expand_ok (hP : P t) (h : g.expand linked depth past t = .ok now) :
    g.Expands linked P past now ∧ t.id ∈ now.visited := by
  induction depth generalizing past t now with
  | zero =>
    by_cases hid : t.id ∈ past.visited
    · rw [expand_of_visited hid] at h
      cases h
      exact ⟨.refl _, hid⟩
    · rw [expand_zero hid] at h
      cases h
  | succ depth ih =>
    by_cases hid : t.id ∈ past.visited
    · rw [expand_of_visited hid] at h
      cases h
      exact ⟨.refl _, hid⟩
    · rw [expand_succ hid] at h
      obtain ⟨hexpands, hedges⟩ := expandEdges_ok closed hP (fun _ hedge => hedge)
        (fun _ _ _ hdep hdeeper => ih hdep hdeeper) h
      exact ⟨.of_enter hP hexpands hedges, hexpands.visited List.mem_cons_self⟩

/-- An expansion with room for what is unseen fails only at an edge. -/
theorem expand_error (inGraph : ∀ u, P u → u ∈ g.targets) (hP : P t)
    (room : g.unseen past.visited ≤ depth) (h : g.expand linked depth past t = .error e) :
    ∃ u, P u ∧ g.Refuses linked u e := by
  induction depth generalizing past t with
  | zero =>
    by_cases hid : t.id ∈ past.visited
    · rw [expand_of_visited hid] at h
      cases h
    · have hless := unseen_cons_lt (inGraph t hP) hid
      omega
  | succ depth ih =>
    by_cases hid : t.id ∈ past.visited
    · rw [expand_of_visited hid] at h
      cases h
    · rw [expand_succ hid] at h
      obtain ⟨before, edge, after, middle, hsplit, hbefore, hlast⟩ := Refusal.foldlM_error h
      have hedge : edge ∈ t.deps := by simp [hsplit]
      have hsub : before ⊆ t.deps := hsplit ▸ List.subset_append_left _ _
      have hmiddle := (expandEdges_ok closed hP hsub (fun _ _ _ => expand_ok closed) hbefore).1
      rcases expandEdge_error hlast with hdangles | ⟨dep, hget, ⟨hl, hdeeper⟩ | ⟨hl, hlinked⟩⟩
      · exact ⟨t, hP, .inl ⟨edge, hedge, hdangles⟩⟩
      · have hless := unseen_cons_lt (inGraph t hP) hid
        have hseen := unseen_anti (g := g) hmiddle.visited
        have hroom : g.unseen middle.visited ≤ depth := by
          simp only [Expansion.enter] at hseen
          omega
        exact ih (closed t dep hP ⟨edge, hedge, by simp [hl], hget⟩) hroom hdeeper
      · exact ⟨t, hP, .inr ⟨dep, ⟨edge, hedge, hl, hget⟩, hlinked⟩⟩

end Runs

/-! The order of discovery -/

/-- What was found stays in front. -/
theorem found_prefix_of_expand (h : g.expand linked depth past t = .ok now) :
    past.found <+: now.found ∧ (t.id ∉ past.visited → (past.enter t).found <+: now.found) := by
  induction depth generalizing past t now with
  | zero =>
    by_cases hid : t.id ∈ past.visited
    · rw [expand_of_visited hid] at h
      cases h
      exact ⟨List.prefix_rfl, fun hn => absurd hid hn⟩
    · rw [expand_zero hid] at h
      cases h
  | succ depth ih =>
    by_cases hid : t.id ∈ past.visited
    · rw [expand_of_visited hid] at h
      cases h
      exact ⟨List.prefix_rfl, fun hn => absurd hid hn⟩
    · rw [expand_succ hid] at h
      have hedges : (past.enter t).found <+: now.found := by
        refine (Refusal.foldlM_ok (R := fun a b => a.found <+: b.found) (D := fun _ _ => True)
          (fun _ => List.prefix_rfl) .trans (fun _ _ => trivial) ?_ h).1
        intro edge _ before after hstep
        obtain ⟨dep, -, ⟨-, hdeeper⟩ | ⟨-, found, -, rfl⟩ | ⟨-, rfl⟩⟩ := expandEdge_ok hstep
        · exact ⟨(ih hdeeper).1, trivial⟩
        · exact ⟨List.prefix_append _ _, trivial⟩
        · exact ⟨List.prefix_rfl, trivial⟩
      exact ⟨(List.prefix_append _ _).trans hedges, fun _ => hedges⟩

end Graph

end LicenseNotice
