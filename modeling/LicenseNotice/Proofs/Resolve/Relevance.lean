import LicenseNotice.Proofs.Resolve.Stages

/-! # Only relevant targets are read

Two graphs with the same ids that agree on the targets relevant to a list of roots resolve to the
same result or the same failure. Each stage is shown to stay inside a set of targets on which the
graphs agree; outside of it a look-up is only asked whether it finds anything.
-/

namespace LicenseNotice.Graph

set_option autoImplicit false

/-- The graphs hold the same ids, and the same targets as far as `P` goes. -/
structure AgreeOn (P : Target → Prop) (g g' : Graph) : Prop where
  keyed : g.KeyedById
  keyed' : g'.KeyedById
  ids : ∀ key, g.contains key = g'.contains key
  targets : ∀ t, P t → g'.get? t.id = some t

variable {P Q : Target → Prop} {g g' : Graph}
  {linked linked' : Target → Except ResolveError (List Target)} {depth : Nat} {t dep dep' : Target}
  {edge : Edge} {roots : List String}

namespace AgreeOn

theorem mono (h : AgreeOn P g g') (hsub : ∀ t, Q t → P t) : AgreeOn Q g g' :=
  ⟨h.keyed, h.keyed', h.ids, fun t ht => h.targets t (hsub t ht)⟩

theorem get?_eq (h : AgreeOn P g g') {key : String} (hget : g.get? key = some t) (ht : P t) :
    g'.get? key = some t := by
  rw [← h.keyed.id_of_get? hget]
  exact h.targets t ht

theorem get?_none (h : AgreeOn P g g') {key : String} (hget : g.get? key = none) :
    g'.get? key = none := by
  rw [get?_eq_none_iff] at hget ⊢
  rwa [← h.ids]

theorem size_eq (h : AgreeOn P g g') : g.size = g'.size := by
  have hperm : (Keyed.keys g.entries).Perm (Keyed.keys g'.entries) := by
    rw [List.perm_ext_iff_of_nodup h.keyed.2 h.keyed'.2]
    intro key
    rw [← Keyed.contains_iff_mem_keys, ← Keyed.contains_iff_mem_keys]
    exact Bool.eq_iff_iff.mp (h.ids key)
  simpa [Keyed.keys, size] using hperm.length_eq

/-- Steps that follow the same edge agree if they agree on what they do with it. -/
theorem follow_bind {α : Type} (h : AgreeOn P g g') {f f' : Target → Except ResolveError α}
    (hf : ∀ dep dep', g.get? edge.dependency = some dep → g'.get? edge.dependency = some dep' →
      f dep = f' dep') : (g.follow t edge >>= f) = (g'.follow t edge >>= f') := by
  cases hget : g.get? edge.dependency with
  | none => rw [follow, follow, hget, h.get?_none hget]; rfl
  | some dep =>
    obtain ⟨dep', hget'⟩ := contains_iff_exists.mp (h.ids _ ▸ contains_of_get? hget)
    rw [follow, follow, hget, hget']
    exact hf dep dep' hget hget'

/-- The step is the same in both graphs where the dependency is one of those they agree on. -/
theorem follow_bind_of {α : Type} (h : AgreeOn P g g') {f f' : Target → Except ResolveError α}
    (hP : ∀ dep, g.get? edge.dependency = some dep → P dep) (hf : ∀ dep, P dep → f dep = f' dep) :
    (g.follow t edge >>= f) = (g'.follow t edge >>= f') := by
  apply h.follow_bind
  intro dep dep' hget hget'
  have hdep := hP dep hget
  cases (h.get?_eq hget hdep).symm.trans hget'
  exact hf dep hdep

end AgreeOn

theorem expand_congr (h : AgreeOn P g g')
    (closed : ∀ u dep, P u → g.Links [.static] u dep → P dep)
    (hlinked : ∀ u, P u → ∀ edge ∈ u.deps, edge.linkage ∈ Linkage.alongside → ∀ dep dep',
      g.get? edge.dependency = some dep → g'.get? edge.dependency = some dep' →
      linked dep = linked' dep')
    (ht : P t) (past : Expansion) :
    g.expand linked depth past t = g'.expand linked' depth past t := by
  induction depth generalizing past t with
  | zero =>
    by_cases hid : t.id ∈ past.visited
    · rw [expand_of_visited hid, expand_of_visited hid]
    · rw [expand_zero hid, expand_zero hid]
  | succ depth ih =>
    by_cases hid : t.id ∈ past.visited
    · rw [expand_of_visited hid, expand_of_visited hid]
    · rw [expand_succ hid, expand_succ hid]
      apply Refusal.foldlM_congr
      intro edge hedge past
      rw [expandEdge, expandEdge]
      cases hl : edge.linkage with
      | static =>
        exact h.follow_bind_of (fun dep hget => closed t dep ht ⟨edge, hedge, by simp [hl], hget⟩)
          fun dep hdep => ih hdep past
      | dynamic | runtime =>
        refine h.follow_bind fun dep dep' hget hget' => ?_
        rw [hlinked t ht edge hedge (by simp [hl, Linkage.alongside]) dep dep' hget hget']
      | toolchain | container => exact h.follow_bind fun _ _ _ _ => rfl

theorem staticClosure_congr (h : AgreeOn (g.InStaticClosure t) g g') :
    g.staticClosure t = g'.staticClosure t := by
  rw [staticClosure, staticClosure, h.size_eq]
  rw [expand_congr h (staticClosure_closed t) (fun _ _ _ _ _ _ _ _ _ => rfl) .refl {}]

theorem contributors_congr (h : AgreeOn (g.Contributes t) g g') :
    g.contributors t = g'.contributors t := by
  have hstatic := h.mono (Q := g.InStaticClosure t) fun _ => .inl
  rw [contributors, contributors, h.size_eq]
  rw [expand_congr hstatic (staticClosure_closed t) ?_ .refl {}]
  intro u hu edge hedge hl dep dep' hget hget'
  have hlink : g.Links Linkage.alongside u dep := ⟨edge, hedge, hl, hget⟩
  have hclosure : ∀ o, g.InStaticClosure dep o → g.Contributes t o :=
    fun o ho => .inr ⟨u, dep, hu, hlink, ho⟩
  cases (h.get?_eq hget (hclosure dep .refl)).symm.trans hget'
  exact staticClosure_congr (h.mono hclosure)

theorem attachments_congr (h : AgreeOn (g.Contributes t) g g') :
    g.attachments t = g'.attachments t := by
  rw [attachments, attachments, contributors_congr h]

theorem passEdge_congr (h : AgreeOn P g g')
    (closed : ∀ u dep, P u → g.Links [.container] u dep → P dep) (ht : P t) (hedge : edge ∈ t.deps)
    (frontier : Frontier) : g.passEdge t frontier edge = g'.passEdge t frontier edge := by
  rw [passEdge, passEdge]
  by_cases hl : edge.linkage = .container
  · exact h.follow_bind_of (fun dep hget => closed t dep ht ⟨edge, hedge, by simp [hl], hget⟩)
      fun _ _ => rfl
  · refine h.follow_bind fun _ _ _ _ => ?_
    rw [if_pos hl, if_pos hl]

theorem shippedFrom_congr (h : AgreeOn P g g')
    (closed : ∀ u dep, P u → g.Links [.container] u dep → P dep) {limit : Nat} {frontier : Frontier}
    (hP : ∀ u ∈ frontier.pending, P u) :
    g.shippedFrom limit frontier = g'.shippedFrom limit frontier := by
  induction limit generalizing frontier with
  | zero =>
    obtain ⟨queued, _ | ⟨t, pending⟩⟩ := frontier <;> rfl
  | succ limit ih =>
    obtain ⟨queued, _ | ⟨t, pending⟩⟩ := frontier
    · rfl
    · obtain ⟨ht, hpending⟩ := List.forall_mem_cons.mp hP
      rw [shippedFrom, shippedFrom,
        ← Refusal.foldlM_congr (fun edge hedge => passEdge_congr h closed ht hedge)]
      apply Refusal.bind_congr_ok
      intro middle hmiddle
      rw [ih (passEdges_pending closed ht hpending hmiddle)]

theorem walkFrom_congr (h : AgreeOn P g g')
    (closed : ∀ u dep, P u → g.Links [.container] u dep → P dep) {onPath : List String}
    {chain : Chain} (hP : P chain.last) :
    g.walkFrom depth onPath chain = g'.walkFrom depth onPath chain := by
  induction depth generalizing onPath chain with
  | zero => rfl
  | succ depth ih =>
    rw [walkFrom, walkFrom]
    congr 1
    apply Refusal.mapM_congr
    intro edge hedge
    obtain ⟨hdeps, hl⟩ := Target.mem_memberEdges.mp hedge
    refine h.follow_bind_of (fun dep hget => closed _ dep hP ⟨edge, hdeps, by simp [hl], hget⟩) ?_
    intro dep hdep
    split
    case isTrue => rfl
    case isFalse => exact ih ((Chain.last_extend _ _).symm ▸ hdep)

/-- The relevant targets of a graph whose relevant edges can all be followed. -/
def relevantTargets (g : Graph) (roots : List String) : Except ResolveError (List Target) := do
  let targets ← roots.mapM g.root
  let shipped ← g.shipped targets
  let found ← shipped.mapM g.contributors
  return found.flatten

theorem mem_relevantTargets (hg : g.KeyedById) {found : List Target}
    (h : g.relevantTargets roots = .ok found) : t ∈ found ↔ g.Relevant roots t := by
  obtain ⟨targets, htargets, h⟩ := Refusal.bind_eq_ok.mp h
  obtain ⟨shipped, hshipped, h⟩ := Refusal.bind_eq_ok.mp h
  obtain ⟨lists, hlists, rfl⟩ := Refusal.bind_pure_eq_ok.mp h
  have hships : ∀ u, u ∈ shipped ↔ g.Ships roots u := fun u => mem_shipped htargets hshipped hg
  rw [Refusal.mem_flatten_of_mapM_eq_ok hlists fun u hu _ hcontributors _ =>
    mem_contributors hg ((hships u).mp hu).mem_targets hcontributors]
  exact exists_congr fun u => and_congr_left' (hships u)

/-! The stages -/

theorem roots_congr (h : AgreeOn (g.Ships roots) g g') : roots.mapM g.root = roots.mapM g'.root := by
  apply Refusal.mapM_congr
  intro key hkey
  rw [root, root]
  cases hget : g.get? key with
  | none => rw [h.get?_none hget]
  | some t => rw [h.get?_eq hget ⟨key, hkey, t, hget, .refl⟩]

theorem shipped_congr {targets : List Target} (h : AgreeOn (g.Ships roots) g g')
    (hroots : roots.mapM g.root = .ok targets) : g.shipped targets = g'.shipped targets := by
  rw [shipped, shipped, h.size_eq]
  exact shippedFrom_congr h (fun u dep hu hlink => hu.member hlink) (pending_ofRoots hroots)

theorem attachmentTable_congr {shipped : List Target} (h : AgreeOn (g.Relevant roots) g g')
    (hships : ∀ t ∈ shipped, g.Ships roots t) :
    g.attachmentTable shipped = g'.attachmentTable shipped := by
  apply Refusal.mapM_congr
  intro t ht
  rw [attachments_congr (h.mono fun o ho => ⟨t, hships t ht, ho⟩)]

theorem walk_congr (h : AgreeOn (g.Ships roots) g g') (ht : g.Ships roots t) :
    g.walk t = g'.walk t := by
  rw [walk, walk, h.size_eq]
  exact walkFrom_congr h (fun u dep hu hlink => hu.member hlink) ht

/-- What is not relevant to the roots has no part in the result, nor in the failure. -/
theorem resolve_eq_of_agree (hg : g.KeyedById) (hg' : g'.KeyedById)
    (hroot : g.outputRoot = g'.outputRoot) (hids : ∀ key, g.contains key = g'.contains key)
    (roots : List String) (hagree : ∀ t, g.Relevant roots t → g'.get? t.id = some t) :
    g.resolve roots = g'.resolve roots := by
  have h : AgreeOn (g.Relevant roots) g g' := ⟨hg, hg', hids, hagree⟩
  have hships : AgreeOn (g.Ships roots) g g' := h.mono fun _ ht => ht.relevant
  have hreport : g.resolutionsOf = g'.resolutionsOf := by
    funext table chain
    refine congrArg (List.map · _) (funext fun a => ?_)
    rw [resolution, resolution, hroot]
  cases roots with
  | nil => rw [resolve_nil, resolve_nil]
  | cons key rest =>
    rw [resolve_cons, resolve_cons, ← roots_congr hships, hreport]
    apply Refusal.bind_congr_ok
    intro targets htargets
    rw [← shipped_congr hships htargets]
    apply Refusal.bind_congr_ok
    intro shipped hshipped
    rw [← attachmentTable_congr h fun t ht => (mem_shipped htargets hshipped hg).mp ht]
    apply Refusal.bind_congr_ok
    intro table _
    rw [Refusal.mapM_congr fun t ht => walk_congr hships (ships_of_mem_roots htargets ht)]

/-- `sampleImage` with other contents behind the toolchain edge and the second dynamic hop. -/
def sampleImageRevised : Graph :=
  ((sampleImage.insert
    { id := "codec", installName := "codec", deps := [⟨"nowhere", .static, none⟩] }).2.insert
    { id := "tool", kind := .container, installName := "tool", conditions := [⟨.notice, none, none⟩] }).2

theorem resolve_eq_of_agree_image : sampleImage ≠ sampleImageRevised ∧ ∃ set,
    sampleImage.resolve ["image"] = .ok set ∧ sampleImageRevised.resolve ["image"] = .ok set ∧
    set.size = 3 := by
  have hread : ∃ found, sampleImage.relevantTargets ["image"] = .ok found ∧
      ∀ t ∈ found, sampleImageRevised.get? t.id = some t := ⟨_, rfl, by decide⟩
  obtain ⟨found, hfound, hkept⟩ := hread
  have hequal : sampleImage.resolve ["image"] = sampleImageRevised.resolve ["image"] :=
    resolve_eq_of_agree sampleImage_keyedById ((sampleImage_keyedById.insert _).insert _) rfl
      (contains_eq_of_keys rfl) ["image"] fun t ht =>
        hkept t ((mem_relevantTargets sampleImage_keyedById hfound).mpr ht)
  exact ⟨by decide, _, rfl, hequal.symm, by decide⟩

end LicenseNotice.Graph
