import LicenseNotice.Proofs.Resolve.Expansion

/-! # What is attached to a target

The conditions attached to a target are those of its contributors, each once. They are computed
exactly when every edge of every contributor names a target; otherwise the failure reports an edge
of a contributor that does not.
-/

namespace LicenseNotice.Graph

set_option autoImplicit false

variable {g : Graph} {linked : Target → Except ResolveError (List Target)}
  {depth : Nat} {now : Expansion} {found : List Target} {t u o : Target} {e : ResolveError}

theorem staticClosure_closed (t : Target) :
    ∀ u dep, g.InStaticClosure t u → g.Links [.static] u dep → g.InStaticClosure t dep :=
  fun _ _ hu hlink => hu.tail hlink

section FromNothing

variable (hg : g.KeyedById) (ht : t ∈ g.targets) (h : g.expand linked depth {} t = .ok now)

include hg ht h

theorem settled_of_visited (hu : u ∈ g.targets) (hid : u.id ∈ now.visited) :
    g.Settled linked u now := by
  obtain ⟨hexpands, _⟩ := expand_ok (staticClosure_closed t) .refl h
  rcases hexpands.settled u.id hid with hid | ⟨v, hv, hvu, hsettled⟩
  · cases hid
  · exact hg.eq_of_id_eq (mem_targets_of_reaches ht hv) hu hvu ▸ hsettled

theorem visited_of_inStaticClosure (hu : g.InStaticClosure t u) : u.id ∈ now.visited := by
  induction hu with
  | refl => exact (expand_ok (staticClosure_closed t) .refl h).2
  | tail hu hlink ih =>
    have hsettled := settled_of_visited hg ht h (mem_targets_of_reaches ht hu) ih
    exact hsettled.visited_of_links hlink

theorem settled_of_inStaticClosure (hu : g.InStaticClosure t u) : g.Settled linked u now :=
  settled_of_visited hg ht h (mem_targets_of_reaches ht hu) (visited_of_inStaticClosure hg ht h hu)

theorem mem_expand : o ∈ now.found ↔ ∃ u, g.InStaticClosure t u ∧ g.Yields linked u o := by
  constructor
  · intro ho
    rcases (expand_ok (staticClosure_closed t) .refl h).1.yielded o ho with ho | ho
    · cases ho
    · exact ho
  · rintro ⟨u, hu, rfl | ⟨dep, found, hlink, hfound, ho⟩⟩
    · exact (settled_of_inStaticClosure hg ht h hu).found
    · obtain ⟨found', hfound', hsub⟩ := (settled_of_inStaticClosure hg ht h hu).found_of_links hlink
      cases hfound.symm.trans hfound'
      exact hsub ho

end FromNothing

theorem expand_error_from_nothing (ht : t ∈ g.targets)
    (h : g.expand linked g.size {} t = .error e) :
    ∃ u, g.InStaticClosure t u ∧ g.Refuses linked u e :=
  expand_error (staticClosure_closed t) (fun _ hu => mem_targets_of_reaches ht hu) .refl
    (Nat.le_of_eq (unseen_nil g)) h

/-! What a dynamic dependency links -/

theorem staticClosure_ok (h : g.staticClosure t = .ok found) :
    ∃ now, g.expand (fun _ => .ok []) g.size {} t = .ok now ∧ now.found = found := by
  exact Refusal.bind_pure_eq_ok.mp h

theorem mem_staticClosure (hg : g.KeyedById) (ht : t ∈ g.targets)
    (h : g.staticClosure t = .ok found) : o ∈ found ↔ g.InStaticClosure t o := by
  obtain ⟨now, hnow, rfl⟩ := staticClosure_ok h
  rw [mem_expand hg ht hnow]
  constructor
  · rintro ⟨u, hu, rfl | ⟨_, _, _, hfound, ho⟩⟩
    · exact hu
    · cases hfound
      cases ho
  · exact fun ho => ⟨o, ho, .inl rfl⟩

theorem staticClosure_error (ht : t ∈ g.targets) (h : g.staticClosure t = .error e) :
    ∃ o, g.InStaticClosure t o ∧ g.Dangles o e := by
  obtain ⟨u, hu, hdangles | ⟨_, _, h⟩⟩ := expand_error_from_nothing ht (Refusal.bind_pure_eq_error.mp h)
  · exact ⟨u, hu, hdangles⟩
  · cases h

/-! What reaches a shipped target -/

theorem contributors_ok (h : g.contributors t = .ok found) :
    ∃ now, g.expand g.staticClosure g.size {} t = .ok now ∧ now.found = found := by
  exact Refusal.bind_pure_eq_ok.mp h

theorem mem_contributors (hg : g.KeyedById) (ht : t ∈ g.targets)
    (h : g.contributors t = .ok found) : o ∈ found ↔ g.Contributes t o := by
  obtain ⟨now, hnow, rfl⟩ := contributors_ok h
  rw [mem_expand hg ht hnow]
  constructor
  · rintro ⟨u, hu, rfl | ⟨dep, found, hlink, hfound, ho⟩⟩
    · exact .inl hu
    · exact .inr ⟨u, dep, hu, hlink, (mem_staticClosure hg hlink.mem_targets hfound).mp ho⟩
  · rintro (ho | ⟨via, dep, hvia, hlink, ho⟩)
    · exact ⟨o, ho, .inl rfl⟩
    · obtain ⟨found, hfound, _⟩ := (settled_of_inStaticClosure hg ht hnow hvia).found_of_links hlink
      have ho := (mem_staticClosure hg hlink.mem_targets hfound).mpr ho
      exact ⟨via, hvia, .inr ⟨dep, found, hlink, hfound, ho⟩⟩

theorem contributors_error (ht : t ∈ g.targets) (h : g.contributors t = .error e) :
    ∃ o, g.Contributes t o ∧ g.Dangles o e := by
  obtain ⟨u, hu, hdangles | ⟨dep, hlink, h⟩⟩ :=
    expand_error_from_nothing ht (Refusal.bind_pure_eq_error.mp h)
  · exact ⟨u, .inl hu, hdangles⟩
  · obtain ⟨o, ho, hdangles⟩ := staticClosure_error hlink.mem_targets h
    exact ⟨o, .inr ⟨u, dep, hu, hlink, ho⟩, hdangles⟩

theorem exists_contributors_iff (hg : g.KeyedById) (ht : t ∈ g.targets) :
    (∃ found, g.contributors t = .ok found) ↔ ∀ o, g.Contributes t o → g.EdgesFound o := by
  constructor
  · rintro ⟨found, h⟩ o ho
    obtain ⟨now, hnow, _⟩ := contributors_ok h
    rcases ho with ho | ⟨via, dep, hvia, hlink, ho⟩
    · exact (settled_of_inStaticClosure hg ht hnow ho).edgesFound
    · obtain ⟨found, hfound, _⟩ := (settled_of_inStaticClosure hg ht hnow hvia).found_of_links hlink
      obtain ⟨inner, hinner, _⟩ := staticClosure_ok hfound
      exact (settled_of_inStaticClosure hg hlink.mem_targets hinner ho).edgesFound
  · intro h
    apply Refusal.exists_ok_of_ne_error
    intro e he
    obtain ⟨o, ho, hdangles⟩ := contributors_error ht he
    exact (h o ho).not_dangles e hdangles

theorem attachments_ok {as : List Attachment} (h : g.attachments t = .ok as) :
    ∃ found, g.contributors t = .ok found ∧
      as = distinctBy (fun a => (a.origin.id, a.condition)) (found.flatMap (·.ownAttachments)) := by
  obtain ⟨found, hfound, h⟩ := Refusal.bind_pure_eq_ok.mp h
  exact ⟨found, hfound, h.symm⟩

theorem mem_ownAttachments {a : Attachment} :
    a ∈ t.ownAttachments ↔ a.origin = t ∧ a.condition ∈ t.conditions := by
  obtain ⟨origin, condition⟩ := a
  simp [Target.ownAttachments, eq_comm, and_comm]

/-- A condition is attached to a target exactly if a contributor declares it. -/
theorem mem_attachments (hg : g.KeyedById) (ht : t ∈ g.targets) {as : List Attachment}
    (h : g.attachments t = .ok as) (a : Attachment) :
    a ∈ as ↔ g.Contributes t a.origin ∧ a.condition ∈ a.origin.conditions := by
  obtain ⟨found, hfound, rfl⟩ := attachments_ok h
  have hmem : ∀ a : Attachment, a ∈ found.flatMap (·.ownAttachments) ↔
      g.Contributes t a.origin ∧ a.condition ∈ a.origin.conditions := by
    intro a
    simp only [List.mem_flatMap, mem_ownAttachments, mem_contributors hg ht hfound]
    constructor
    · rintro ⟨o, ho, rfl, hc⟩
      exact ⟨ho, hc⟩
    · exact fun ⟨ho, hc⟩ => ⟨a.origin, ho, rfl, hc⟩
  constructor
  · exact fun ha => (hmem a).mp (mem_of_mem_distinctFrom ha).1
  · intro ha
    obtain ⟨b, hb, hba⟩ := exists_mem_distinctBy
      (fun a : Attachment => (a.origin.id, a.condition)) ((hmem a).mpr ha)
    obtain ⟨hid, hcondition⟩ := Prod.mk.inj hba
    have hcontributes := ((hmem b).mp (mem_of_mem_distinctFrom hb).1).1
    have horigin := hg.eq_of_id_eq (hcontributes.mem_targets ht) (ha.1.mem_targets ht) hid
    have heq : b = a := by
      cases a
      cases b
      simp_all
    exact heq ▸ hb

/-- A target's own conditions are attached to it, whatever else is found under its id. -/
theorem own_mem_attachments {as : List Attachment} (h : g.attachments t = .ok as)
    {condition : Condition} (hdeclared : condition ∈ t.conditions) : ⟨t, condition⟩ ∈ as := by
  obtain ⟨found, hfound, rfl⟩ := attachments_ok h
  obtain ⟨now, hnow, rfl⟩ := contributors_ok hfound
  obtain ⟨rest, hrest⟩ := (found_prefix_of_expand hnow).2 List.not_mem_nil
  have hown : (⟨t, condition⟩ : Attachment) ∈ t.ownAttachments :=
    mem_ownAttachments.mpr ⟨rfl, hdeclared⟩
  -- The target is found first, so of all attachments with one key its own is the one kept.
  obtain ⟨kept, hkept, hkey⟩ :=
    exists_mem_distinctBy (fun a : Attachment => (a.origin.id, a.condition)) hown
  have horigin := (mem_ownAttachments.mp (mem_of_mem_distinctFrom hkept).1).1
  have heq : kept = ⟨t, condition⟩ := by
    cases kept
    cases horigin
    cases (Prod.mk.inj hkey).2
    rfl
  rw [← hrest, ← heq, Expansion.enter, List.nil_append, List.singleton_append, List.flatMap_cons,
    distinctBy, distinctFrom_append]
  exact List.mem_append_left _ hkept

theorem attachments_error (ht : t ∈ g.targets) (h : g.attachments t = .error e) :
    ∃ o, g.Contributes t o ∧ g.Dangles o e :=
  contributors_error ht (Refusal.bind_pure_eq_error.mp h)

theorem exists_attachments_iff (hg : g.KeyedById) (ht : t ∈ g.targets) :
    (∃ as, g.attachments t = .ok as) ↔ ∀ o, g.Contributes t o → g.EdgesFound o := by
  rw [← exists_contributors_iff hg ht]
  constructor
  · rintro ⟨as, h⟩
    obtain ⟨found, hfound, _⟩ := attachments_ok h
    exact ⟨found, hfound⟩
  · rintro ⟨found, h⟩
    exact ⟨_, Refusal.bind_pure_eq_ok.mpr ⟨found, h, rfl⟩⟩

end LicenseNotice.Graph
