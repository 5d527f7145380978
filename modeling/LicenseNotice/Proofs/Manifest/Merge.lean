import Mathlib.Data.List.Induction
import LicenseNotice.Manifest.Merge
import LicenseNotice.Proofs.Graph.Lookup
import LicenseNotice.Proofs.Refusal

/-! # What merging manifests gives

Merging succeeds exactly when the declared output roots agree and the targets that are kept have
distinct ids, wherever they stand; the graph then holds the kept targets in order. The warnings
never change the outcome.
-/

namespace LicenseNotice

set_option autoImplicit false

namespace Merging

variable {α β : Type} {warnings : List Warning}

/-- What a merge comes to when it starts with some warnings. -/
def outcome (x : Merging α) (warnings : List Warning) : Except MergeError α :=
  (x.run.run warnings).1

def warningsAfter (x : Merging α) (warnings : List Warning) : List Warning :=
  (x.run.run warnings).2

theorem outcome_pure (a : α) (warnings : List Warning) :
    outcome (pure a) warnings = .ok a := rfl

theorem outcome_throw (e : MergeError) (warnings : List Warning) :
    outcome (throw e : Merging α) warnings = .error e := rfl

theorem outcome_bind (x : Merging α) (f : α → Merging β) (warnings : List Warning) :
    outcome (x >>= f) warnings =
      (outcome x warnings >>= fun a => outcome (f a) (warningsAfter x warnings)) := by
  rw [outcome, outcome, warningsAfter, ExceptT.run_bind, StateT.run_bind]
  generalize x.run.run warnings = ran
  obtain ⟨_ | a, later⟩ := ran <;> rfl

theorem outcome_bind_eq_ok {x : Merging α} {f : α → Merging β} {b : β} :
    outcome (x >>= f) warnings = .ok b ↔
      ∃ a, outcome x warnings = .ok a ∧ outcome (f a) (warningsAfter x warnings) = .ok b := by
  rw [outcome_bind, Refusal.bind_eq_ok]

end Merging

/-- Neither the id nor the install name is blank. -/
def Target.isKept (t : Target) : Bool := ! Text.isBlank t.id && ! Text.isBlank t.installName

namespace Manifest

/-- The targets that are kept, in the order in which they are read. -/
def keptTargets (manifests : List (String × Manifest)) : List Target :=
  manifests.flatMap fun manifest => manifest.2.targets.filter (·.isKept)

def declaredRoots (manifests : List (String × Manifest)) : List String :=
  manifests.filterMap (·.2.outputRoot)

/-- The declared output roots are all the same, and no two kept targets share an id. -/
structure Mergeable (manifests : List (String × Manifest)) : Prop where
  roots : ∀ root ∈ declaredRoots manifests, ∀ other ∈ declaredRoots manifests, root = other
  ids : ((keptTargets manifests).map (·.id)).Nodup

end Manifest

namespace Merged

open Merging (outcome)

variable {accepted : Option String} {kept : List Target} {now : Merged} {path : String} {t : Target}
  {warnings : List Warning}

theorem declareRoot_eq_ok {declared : Option String} :
    outcome (declareRoot ⟨accepted, kept⟩ path declared) warnings = .ok now ↔
      (∀ root ∈ declared, ∀ other ∈ accepted, other = root) ∧ now = ⟨accepted.or declared, kept⟩ := by
  cases declared with
  | none => simp [declareRoot, Merging.outcome_pure, eq_comm]
  | some root =>
    cases accepted with
    | none => simp [declareRoot, Merging.outcome_pure, eq_comm]
    | some other =>
      by_cases h : other = root
      · simp [declareRoot, h, Merging.outcome_pure, eq_comm]
      · simp [declareRoot, h, Merging.outcome_throw]

theorem addTarget_of_kept (h : t.isKept) : addTarget path ⟨accepted, kept⟩ t =
    if t.id ∈ kept.map (·.id) then throw (.duplicateTarget t.id path)
    else pure ⟨accepted, kept ++ [t]⟩ := by
  rw [Target.isKept, Bool.and_eq_true, Bool.not_eq_true', Bool.not_eq_true'] at h
  rw [addTarget, h.1, h.2]
  rfl

theorem outcome_addTarget_of_not_kept (h : ¬ t.isKept) :
    outcome (addTarget path ⟨accepted, kept⟩ t) warnings = .ok ⟨accepted, kept⟩ := by
  rw [addTarget]
  cases hid : Text.isBlank t.id
  · cases hname : Text.isBlank t.installName
    · simp [Target.isKept, hid, hname] at h
    · rfl
  · rfl

theorem addTarget_eq_ok (unique : (kept.map (·.id)).Nodup) :
    outcome (addTarget path ⟨accepted, kept⟩ t) warnings = .ok now ↔
      ((kept ++ [t].filter (·.isKept)).map (·.id)).Nodup ∧
        now = ⟨accepted, kept ++ [t].filter (·.isKept)⟩ := by
  by_cases hkept : t.isKept
  · have hnodup : ((kept ++ [t]).map (·.id)).Nodup ↔ t.id ∉ kept.map (·.id) := by
      rw [((List.perm_append_singleton t kept).map (·.id)).nodup_iff, List.map_cons,
        List.nodup_cons, and_iff_left unique]
    rw [addTarget_of_kept hkept, List.filter_singleton, hkept, cond_true, hnodup]
    by_cases hid : t.id ∈ kept.map (·.id)
    · simp [hid, Merging.outcome_throw]
    · simp [hid, Merging.outcome_pure, eq_comm]
  · rw [outcome_addTarget_of_not_kept hkept, List.filter_singleton, eq_false_of_ne_true hkept,
      cond_false, List.append_nil, and_iff_right unique, Except.ok.injEq, eq_comm]

theorem addTargets_eq_ok {targets : List Target} (unique : (kept.map (·.id)).Nodup) :
    outcome (targets.foldlM (addTarget path) ⟨accepted, kept⟩) warnings = .ok now ↔
      ((kept ++ targets.filter (·.isKept)).map (·.id)).Nodup ∧
        now = ⟨accepted, kept ++ targets.filter (·.isKept)⟩ := by
  induction targets generalizing kept warnings with
  | nil => simp [Merging.outcome_pure, unique, eq_comm]
  | cons t rest ih =>
    have hsplit : (t :: rest).filter (·.isKept) =
        [t].filter (·.isKept) ++ rest.filter (·.isKept) := List.filter_append [t] rest
    rw [List.foldlM_cons, Merging.outcome_bind_eq_ok, hsplit, ← List.append_assoc]
    constructor
    · rintro ⟨next, hnext, hrest⟩
      obtain ⟨hunique, rfl⟩ := (addTarget_eq_ok unique).mp hnext
      exact (ih hunique).mp hrest
    · rintro ⟨hunique, rfl⟩
      have hnext : ((kept ++ [t].filter (·.isKept)).map (·.id)).Nodup := by
        rw [List.map_append] at hunique
        exact (List.nodup_append.mp hunique).1
      exact ⟨_, (addTarget_eq_ok unique).mpr ⟨hnext, rfl⟩, (ih hnext).mpr ⟨hunique, rfl⟩⟩

theorem addManifest_eq_ok {m : Manifest} (unique : (kept.map (·.id)).Nodup) :
    outcome (addManifest ⟨accepted, kept⟩ (path, m)) warnings = .ok now ↔
      (∀ root ∈ m.outputRoot, ∀ other ∈ accepted, other = root) ∧
      ((kept ++ m.targets.filter (·.isKept)).map (·.id)).Nodup ∧
        now = ⟨accepted.or m.outputRoot, kept ++ m.targets.filter (·.isKept)⟩ := by
  rw [addManifest, Merging.outcome_bind_eq_ok]
  constructor
  · rintro ⟨next, hnext, htargets⟩
    obtain ⟨hroots, rfl⟩ := declareRoot_eq_ok.mp hnext
    exact ⟨hroots, (addTargets_eq_ok unique).mp htargets⟩
  · rintro ⟨hroots, htargets⟩
    exact ⟨_, declareRoot_eq_ok.mpr ⟨hroots, rfl⟩, (addTargets_eq_ok unique).mpr htargets⟩

end Merged

namespace Manifest

variable {manifests : List (String × Manifest)} {path : String} {m : Manifest} {g : Graph}

theorem keptTargets_concat : keptTargets (manifests ++ [(path, m)]) =
    keptTargets manifests ++ m.targets.filter (·.isKept) := by
  simp [keptTargets]

theorem declaredRoots_concat : declaredRoots (manifests ++ [(path, m)]) =
    declaredRoots manifests ++ m.outputRoot.toList := by
  rw [declaredRoots, List.filterMap_append]
  cases h : m.outputRoot <;> simp [declaredRoots, h]

/-- Any declared output root is the first one. -/
theorem Mergeable.head?_declaredRoots (h : Mergeable manifests) {root : String} :
    (declaredRoots manifests).head? = some root ↔ root ∈ declaredRoots manifests := by
  refine ⟨List.mem_of_head?, fun hroot => ?_⟩
  have hroots := h.roots
  cases hdeclared : declaredRoots manifests with
  | nil =>
    rw [hdeclared] at hroot
    cases hroot
  | cons first rest => exact congrArg some (hroots first (hdeclared ▸ List.mem_cons_self) root hroot)

theorem mergeable_concat : Mergeable (manifests ++ [(path, m)]) ↔ Mergeable manifests ∧
    (∀ root ∈ m.outputRoot, ∀ other ∈ (declaredRoots manifests).head?, other = root) ∧
    ((keptTargets manifests ++ m.targets.filter (·.isKept)).map (·.id)).Nodup := by
  constructor
  · rintro ⟨hroots, hids⟩
    rw [declaredRoots_concat] at hroots
    rw [keptTargets_concat] at hids
    refine ⟨⟨fun root hroot other hother => ?_, ?_⟩, fun root hroot other hother => ?_, hids⟩
    · exact hroots root (List.mem_append_left _ hroot) other (List.mem_append_left _ hother)
    · rw [List.map_append] at hids
      exact (List.nodup_append.mp hids).1
    · exact hroots other (List.mem_append_left _ (List.mem_of_head? hother)) root
        (List.mem_append_right _ (Option.mem_toList.mpr hroot))
  · rintro ⟨⟨hroots, _⟩, hroot, hids⟩
    refine ⟨?_, keptTargets_concat ▸ hids⟩
    rw [declaredRoots_concat]
    cases hdeclared : m.outputRoot with
    | none => simpa using hroots
    | some declared =>
      cases haccepted : declaredRoots manifests with
      | nil => simp
      | cons first rest =>
        have hfirst : first = declared := hroot declared hdeclared first (by rw [haccepted]; rfl)
        have hall : ∀ root ∈ first :: rest, root = declared := fun root hmem =>
          (hroots root (haccepted ▸ hmem) first (by simp [haccepted])).trans hfirst
        intro root hmem other hother
        simp only [Option.toList_some, List.mem_append, List.mem_singleton] at hmem hother
        rw [hmem.elim (hall root) id, hother.elim (hall other) id]

theorem addManifests_eq_ok {warnings : List Warning} {now : Merged} :
    Merging.outcome (manifests.foldlM Merged.addManifest {}) warnings = .ok now ↔
      Mergeable manifests ∧ now = ⟨(declaredRoots manifests).head?, keptTargets manifests⟩ := by
  -- From the end: what was accepted when a manifest is read depends on all the manifests before it.
  induction manifests using List.reverseRecOn generalizing now with
  | nil =>
    have hempty : Mergeable [] := ⟨nofun, List.nodup_nil⟩
    simp [Merging.outcome_pure, hempty, declaredRoots, keptTargets, eq_comm]
  | append_singleton manifests manifest ih =>
    obtain ⟨path, m⟩ := manifest
    rw [List.foldlM_append, Merging.outcome_bind_eq_ok, mergeable_concat, declaredRoots_concat,
      keptTargets_concat, List.head?_append, Option.head?_toList]
    simp only [ih, List.foldlM_cons, List.foldlM_nil, bind_pure]
    constructor
    · rintro ⟨_, ⟨hmergeable, rfl⟩, h⟩
      obtain ⟨hroot, hids, rfl⟩ := (Merged.addManifest_eq_ok hmergeable.ids).mp h
      exact ⟨⟨hmergeable, hroot, hids⟩, rfl⟩
    · rintro ⟨⟨hmergeable, hroot, hids⟩, rfl⟩
      exact ⟨_, ⟨hmergeable, rfl⟩, (Merged.addManifest_eq_ok hmergeable.ids).mpr ⟨hroot, hids, rfl⟩⟩

/-- Exactly when manifests can be merged, and what they are merged into. -/
theorem merge?_eq_ok : merge? manifests = .ok g ↔ Mergeable manifests ∧
    g = .ofTargets ((declaredRoots manifests).head?.getD Graph.defaultOutputRoot)
      (keptTargets manifests) := by
  have hmerge : merge? manifests = Merging.outcome (merge manifests) [] := rfl
  rw [hmerge, merge, Merging.outcome_bind_eq_ok]
  constructor
  · rintro ⟨merged, hmerged, h⟩
    obtain ⟨hmergeable, rfl⟩ := addManifests_eq_ok.mp hmerged
    exact ⟨hmergeable, (Except.ok.inj h).symm⟩
  · rintro ⟨hmergeable, rfl⟩
    exact ⟨_, addManifests_eq_ok.mpr ⟨hmergeable, rfl⟩, rfl⟩

theorem isKept_of_mem_targets (h : merge? manifests = .ok g) {t : Target} (ht : t ∈ g.targets) :
    t.isKept := by
  obtain ⟨hmergeable, rfl⟩ := merge?_eq_ok.mp h
  rw [Graph.targets_ofTargets _ hmergeable.ids, keptTargets, List.mem_flatMap] at ht
  obtain ⟨manifest, -, ht⟩ := ht
  exact (List.mem_filter.mp ht).2

end Manifest

theorem Graph.keyedById_of_merge? {manifests : List (String × Manifest)} {g : Graph}
    (h : Manifest.merge? manifests = .ok g) : g.KeyedById := by
  rw [(Manifest.merge?_eq_ok.mp h).2]
  exact keyedById_ofTargets _ _

end LicenseNotice
