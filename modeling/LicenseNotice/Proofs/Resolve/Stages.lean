import LicenseNotice.Proofs.Resolution
import LicenseNotice.Proofs.Resolve.Attachment
import LicenseNotice.Proofs.Resolve.Shipped
import LicenseNotice.Proofs.Resolve.Walk
import LicenseNotice.Resolve

/-! # The stages of a resolution

A resolution that succeeds has passed every stage; one that fails has failed at one stage after
passing those before it. The table made between the stages holds the attachments of everything
that ships, so a walk finds an entry for the last target of each of its chains.
-/

namespace LicenseNotice.Graph

set_option autoImplicit false

variable {g : Graph} {roots : List String} {targets shipped : List Target}
  {table : List (String × List Attachment)} {set : ResolutionSet} {t : Target} {e : ResolveError}

theorem resolve_nil (g : Graph) : g.resolve [] = .error .noRoots := rfl

theorem resolve_cons (g : Graph) (key : String) (rest : List String) :
    g.resolve (key :: rest) = (do
      let targets ← (key :: rest).mapM g.root
      let shipped ← g.shipped targets
      let table ← g.attachmentTable shipped
      let walks ← targets.mapM g.walk
      return .ofList (walks.flatten.flatMap (g.resolutionsOf table))) := rfl

theorem resolve_eq_ok : g.resolve roots = .ok set ↔ roots ≠ [] ∧ ∃ targets shipped table walks,
    roots.mapM g.root = .ok targets ∧ g.shipped targets = .ok shipped ∧
    g.attachmentTable shipped = .ok table ∧ targets.mapM g.walk = .ok walks ∧
    set = .ofList (walks.flatten.flatMap (g.resolutionsOf table)) := by
  cases roots with
  | nil =>
    constructor
    · intro h
      cases h
    · exact fun h => absurd rfl h.1
  | cons key rest =>
    constructor
    · intro h
      obtain ⟨targets, htargets, h⟩ := Refusal.bind_eq_ok.mp h
      obtain ⟨shipped, hshipped, h⟩ := Refusal.bind_eq_ok.mp h
      obtain ⟨table, htable, h⟩ := Refusal.bind_eq_ok.mp h
      obtain ⟨walks, hwalks, h⟩ := Refusal.bind_eq_ok.mp h
      exact ⟨List.cons_ne_nil _ _, targets, shipped, table, walks, htargets, hshipped, htable, hwalks,
        (Except.ok.inj h).symm⟩
    · rintro ⟨_, targets, shipped, table, walks, htargets, hshipped, htable, hwalks, rfl⟩
      exact Refusal.bind_eq_ok.mpr ⟨targets, htargets, Refusal.bind_eq_ok.mpr ⟨shipped, hshipped,
        Refusal.bind_eq_ok.mpr ⟨table, htable, Refusal.bind_eq_ok.mpr ⟨walks, hwalks, rfl⟩⟩⟩⟩

/-- Whatever the keys of the graph are, what is listed is attached at the end of some chain. -/
theorem exists_resolution_of_mem (h : g.resolve roots = .ok set) {r : Resolution}
    (hr : r ∈ set.toList) : ∃ chain attachment, r = g.resolution chain attachment := by
  obtain ⟨-, targets, shipped, table, walks, -, -, -, -, rfl⟩ := resolve_eq_ok.mp h
  obtain ⟨chain, -, hr⟩ := List.mem_flatMap.mp (ResolutionSet.mem_of_mem_ofList hr)
  obtain ⟨attachment, -, rfl⟩ := List.mem_map.mp hr
  exact ⟨chain, attachment, rfl⟩

theorem resolve_error (hroots : roots ≠ []) (h : g.resolve roots = .error e) :
    roots.mapM g.root = .error e ∨ ∃ targets, roots.mapM g.root = .ok targets ∧
      (g.shipped targets = .error e ∨ ∃ shipped, g.shipped targets = .ok shipped ∧
        (g.attachmentTable shipped = .error e ∨ targets.mapM g.walk = .error e)) := by
  cases roots with
  | nil => exact absurd rfl hroots
  | cons key rest =>
    rcases Refusal.bind_eq_error.mp h with h | ⟨targets, htargets, h⟩
    · exact .inl h
    · refine .inr ⟨targets, htargets, ?_⟩
      rcases Refusal.bind_eq_error.mp h with h | ⟨shipped, hshipped, h⟩
      · exact .inl h
      · refine .inr ⟨shipped, hshipped, ?_⟩
        rcases Refusal.bind_eq_error.mp h with h | ⟨_, _, h⟩
        · exact .inl h
        · exact .inr (Refusal.bind_pure_eq_error.mp h)

/-! The table of attachments -/

section Table

variable (h : g.attachmentTable shipped = .ok table)

include h

theorem mem_attachmentTable {id : String} {as : List Attachment} :
    (id, as) ∈ table ↔ ∃ t ∈ shipped, t.id = id ∧ g.attachments t = .ok as := by
  rw [Refusal.mem_of_mapM_eq_ok h]
  refine exists_congr fun t => and_congr_right fun _ => ?_
  refine Refusal.bind_pure_eq_ok.trans ?_
  constructor
  · rintro ⟨as', has, heq⟩
    cases heq
    exact ⟨rfl, has⟩
  · rintro ⟨rfl, has⟩
    exact ⟨as, has, rfl⟩

theorem lookup_attachmentTable (ht : t ∈ shipped) (hsole : ∀ u ∈ shipped, u.id = t.id → u = t) :
    ∃ as, g.attachments t = .ok as ∧ table.lookup t.id = some as := by
  obtain ⟨⟨id, as⟩, hentry⟩ := Refusal.exists_mapM_eq_ok.mp ⟨table, h⟩ t ht
  obtain ⟨as, has, heq⟩ := Refusal.bind_pure_eq_ok.mp hentry
  cases heq
  have hkey : t.id ∈ Keyed.keys table :=
    List.mem_map_of_mem ((mem_attachmentTable h).mpr ⟨t, ht, rfl, has⟩)
  obtain ⟨found, hfound⟩ := Option.isSome_iff_exists.mp (Keyed.contains_iff_mem_keys.mpr hkey)
  obtain ⟨u, hu, hid, hattached⟩ := (mem_attachmentTable h).mp (Keyed.mem_of_get? hfound)
  cases hsole u hu hid
  exact ⟨found, hattached, hfound⟩

end Table

theorem exists_attachmentTable_iff : (∃ table, g.attachmentTable shipped = .ok table) ↔
    ∀ t ∈ shipped, ∃ as, g.attachments t = .ok as := by
  refine Refusal.exists_mapM_eq_ok.trans (forall_congr' fun t => imp_congr_right fun _ => ?_)
  constructor
  · rintro ⟨_, h⟩
    obtain ⟨as, has, _⟩ := Refusal.bind_pure_eq_ok.mp h
    exact ⟨as, has⟩
  · rintro ⟨as, has⟩
    exact ⟨(t.id, as), Refusal.bind_pure_eq_ok.mpr ⟨as, has, rfl⟩⟩

theorem attachmentTable_error (h : g.attachmentTable shipped = .error e) :
    ∃ t ∈ shipped, g.attachments t = .error e := by
  obtain ⟨before, t, after, hsplit, _, h⟩ := Refusal.mapM_eq_error.mp h
  exact ⟨t, by simp [hsplit], Refusal.bind_pure_eq_error.mp h⟩

/-- Once the search has succeeded, no walk can fail. -/
theorem exists_walk_of_shipped (hg : g.KeyedById) (hroots : roots.mapM g.root = .ok targets)
    (hshipped : g.shipped targets = .ok shipped) (ht : t ∈ targets) :
    ∃ chains, g.walk t = .ok chains := by
  apply Refusal.exists_ok_of_ne_error
  intro e he
  obtain ⟨key, hkey, hget⟩ := (mem_roots hroots).mp ht
  obtain ⟨u, hreach, hdangles⟩ := walk_error (mem_targets_of_get? hget) he
  have hall := (exists_shipped_iff hroots hg).mp ⟨shipped, hshipped⟩
  exact (hall u ⟨key, hkey, t, hget, hreach⟩).1.not_dangles e hdangles

end LicenseNotice.Graph
