import LicenseNotice.Proofs.Manifest.Merge
import LicenseNotice.Proofs.Text.Trimming

/-! # Why merging manifests fails

Merging stops at the first thing it reads that does not fit what it read before: manifest by
manifest, the output root of a manifest before its targets, the targets in order. The failure
reports that output root or that target; everything before it could be merged.
-/

namespace LicenseNotice

set_option autoImplicit false

theorem Target.isKept_iff {t : Target} :
    t.isKept ↔ Text.trim t.id ≠ "" ∧ Text.trim t.installName ≠ "" := by
  rw [isKept, Bool.and_eq_true, Bool.not_eq_true', Bool.not_eq_true', ← Bool.not_eq_true,
    ← Bool.not_eq_true, Text.isBlank_iff_trim_eq, Text.isBlank_iff_trim_eq]

namespace Merging

variable {α σ : Type} {f : σ → α → Merging σ} {warnings : List Warning} {e : MergeError}

theorem outcome_bind_eq_error {β : Type} {x : Merging α} {f : α → Merging β} :
    outcome (x >>= f) warnings = .error e ↔ outcome x warnings = .error e ∨
      ∃ a, outcome x warnings = .ok a ∧ outcome (f a) (warningsAfter x warnings) = .error e := by
  rw [outcome_bind, Refusal.bind_eq_error]

/-- A pass fails at the first item that is refused in the state to which those before it lead. -/
theorem foldlM_eq_error {items : List α} {first : σ} :
    outcome (items.foldlM f first) warnings = .error e ↔ ∃ before item after s,
      items = before ++ item :: after ∧ outcome (before.foldlM f first) warnings = .ok s ∧
      outcome (f s item) (warningsAfter (before.foldlM f first) warnings) = .error e := by
  induction items using List.reverseRecOn with
  | nil =>
    constructor
    · intro h
      cases h
    · rintro ⟨before, item, after, s, h, -⟩
      simp at h
  | append_singleton items last ih =>
    rw [List.foldlM_append, outcome_bind_eq_error]
    simp only [List.foldlM_cons, List.foldlM_nil, bind_pure]
    constructor
    · rintro (h | ⟨s, hs, h⟩)
      · obtain ⟨before, item, after, s, rfl, hrest⟩ := ih.mp h
        exact ⟨before, item, after ++ [last], s, by simp, hrest⟩
      · exact ⟨items, last, [], s, rfl, hs, h⟩
    · rintro ⟨before, item, after, s, hsplit, hs, h⟩
      rcases List.eq_nil_or_concat after with rfl | ⟨after, other, rfl⟩
      · obtain ⟨rfl, hlast⟩ := List.append_inj' hsplit rfl
        cases hlast
        exact .inr ⟨s, hs, h⟩
      · rw [List.concat_eq_append, ← List.cons_append, ← List.append_assoc] at hsplit
        obtain ⟨rfl, -⟩ := List.append_inj' hsplit rfl
        exact .inl (ih.mpr ⟨before, item, after, s, rfl, hs, h⟩)

end Merging

namespace Manifest

/-- What is reported of a manifest that is read after `before`: an output root other than the one
accepted there, or, after targets that fit, a target that repeats an id. -/
inductive Violates (before : List (String × Manifest)) (path : String) (m : Manifest) :
    MergeError → Prop
  | root {declared accepted : String} : m.outputRoot = some declared →
      accepted ∈ declaredRoots before → accepted ≠ declared →
      Violates before path m (.conflictingRoots path declared accepted)
  | target {first rest : List Target} {t : Target} : m.targets = first ++ t :: rest →
      Mergeable (before ++ [(path, ⟨m.outputRoot, first⟩)]) → t.isKept →
      t.id ∈ (keptTargets (before ++ [(path, ⟨m.outputRoot, first⟩)])).map (·.id) →
      Violates before path m (.duplicateTarget t.id path)

end Manifest

namespace Merged

open Merging (outcome)

variable {accepted : Option String} {kept : List Target} {path : String} {t : Target}
  {warnings : List Warning} {e : MergeError}

theorem declareRoot_eq_error {declared : Option String} :
    outcome (declareRoot ⟨accepted, kept⟩ path declared) warnings = .error e ↔
      ∃ root ∈ declared, ∃ other ∈ accepted, other ≠ root ∧ e = .conflictingRoots path root other := by
  cases declared with
  | none => simp [declareRoot, Merging.outcome_pure]
  | some root =>
    cases accepted with
    | none => simp [declareRoot, Merging.outcome_pure]
    | some other =>
      by_cases h : other = root
      · simp [declareRoot, h, Merging.outcome_pure]
      · simp [declareRoot, h, Merging.outcome_throw, eq_comm]

theorem addTarget_eq_error :
    outcome (addTarget path ⟨accepted, kept⟩ t) warnings = .error e ↔
      t.isKept ∧ t.id ∈ kept.map (·.id) ∧ e = .duplicateTarget t.id path := by
  by_cases hkept : t.isKept
  · rw [addTarget_of_kept hkept, and_iff_right hkept]
    split
    case isTrue hid => simp [hid, Merging.outcome_throw, eq_comm]
    case isFalse hid => simp [hid, Merging.outcome_pure]
  · rw [outcome_addTarget_of_not_kept hkept]
    simp [hkept]

theorem addTargets_eq_error {targets : List Target} (unique : (kept.map (·.id)).Nodup) :
    outcome (targets.foldlM (addTarget path) ⟨accepted, kept⟩) warnings = .error e ↔
      ∃ first t rest, targets = first ++ t :: rest ∧
        ((kept ++ first.filter (·.isKept)).map (·.id)).Nodup ∧ t.isKept ∧
        t.id ∈ (kept ++ first.filter (·.isKept)).map (·.id) ∧ e = .duplicateTarget t.id path := by
  rw [Merging.foldlM_eq_error]
  constructor
  · rintro ⟨first, t, rest, s, hsplit, hs, h⟩
    obtain ⟨hunique, rfl⟩ := (addTargets_eq_ok unique).mp hs
    exact ⟨first, t, rest, hsplit, hunique, addTarget_eq_error.mp h⟩
  · rintro ⟨first, t, rest, hsplit, hunique, h⟩
    exact ⟨first, t, rest, _, hsplit, (addTargets_eq_ok unique).mpr ⟨hunique, rfl⟩,
      addTarget_eq_error.mpr h⟩

end Merged

namespace Manifest

variable {before manifests : List (String × Manifest)} {path : String} {m : Manifest}
  {warnings : List Warning} {e : MergeError}

theorem addManifest_eq_error (h : Mergeable before) :
    Merging.outcome (Merged.addManifest ⟨(declaredRoots before).head?, keptTargets before⟩ (path, m))
      warnings = .error e ↔ Violates before path m e := by
  rw [Merged.addManifest, Merging.outcome_bind_eq_error, Merged.declareRoot_eq_error]
  constructor
  · rintro (⟨declared, hdeclared, accepted, haccepted, hne, rfl⟩ | ⟨s, hs, herror⟩)
    · exact .root hdeclared (h.head?_declaredRoots.mp haccepted) hne
    · obtain ⟨hroot, rfl⟩ := Merged.declareRoot_eq_ok.mp hs
      obtain ⟨first, t, rest, hsplit, hunique, hkept, hid, rfl⟩ :=
        (Merged.addTargets_eq_error h.ids).mp herror
      exact .target hsplit (mergeable_concat.mpr ⟨h, hroot, hunique⟩) hkept
        (keptTargets_concat ▸ hid)
  · rintro (⟨hdeclared, haccepted, hne⟩ | ⟨hsplit, hfirst, hkept, hid⟩)
    · exact .inl ⟨_, hdeclared, _, h.head?_declaredRoots.mpr haccepted, hne, rfl⟩
    · obtain ⟨-, hroot, hunique⟩ := mergeable_concat.mp hfirst
      rw [keptTargets_concat] at hid
      exact .inr ⟨_, Merged.declareRoot_eq_ok.mpr ⟨hroot, rfl⟩,
        (Merged.addTargets_eq_error h.ids).mpr ⟨_, _, _, hsplit, hunique, hkept, hid, rfl⟩⟩

theorem merge?_eq_error : merge? manifests = .error e ↔ ∃ before path m after,
    manifests = before ++ (path, m) :: after ∧ Mergeable before ∧ Violates before path m e := by
  have hmerge : merge? manifests = Merging.outcome (merge manifests) [] := rfl
  rw [hmerge, merge, Merging.outcome_bind_eq_error, or_iff_left (by rintro ⟨_, -, h⟩; cases h),
    Merging.foldlM_eq_error]
  constructor
  · rintro ⟨before, ⟨path, m⟩, after, s, hsplit, hs, h⟩
    obtain ⟨hbefore, rfl⟩ := addManifests_eq_ok.mp hs
    exact ⟨before, path, m, after, hsplit, hbefore, (addManifest_eq_error hbefore).mp h⟩
  · rintro ⟨before, path, m, after, hsplit, hbefore, h⟩
    exact ⟨before, (path, m), after, _, hsplit, addManifests_eq_ok.mpr ⟨hbefore, rfl⟩,
      (addManifest_eq_error hbefore).mpr h⟩

/-- Merging succeeds exactly if the declared output roots agree and the kept targets have distinct
ids, and then holds the kept targets in order; else it reports the first violation. -/
theorem merge?_outcome (manifests : List (String × Manifest)) :
    (∀ t : Target, t.isKept ↔ Text.trim t.id ≠ "" ∧ Text.trim t.installName ≠ "") ∧
    ((∃ g, merge? manifests = .ok g) ↔
      (∀ root ∈ declaredRoots manifests, ∀ other ∈ declaredRoots manifests, root = other) ∧
      ((keptTargets manifests).map (·.id)).Nodup) ∧
    (∀ g, merge? manifests = .ok g →
      g.entries = (keptTargets manifests).map (fun t => (t.id, t)) ∧
      (∀ root ∈ declaredRoots manifests, g.outputRoot = root) ∧
      (declaredRoots manifests = [] → g.outputRoot = "out")) ∧
    (∀ e, merge? manifests = .error e ↔ ∃ before path m after,
      manifests = before ++ (path, m) :: after ∧ Mergeable before ∧ Violates before path m e) ∧
    (∀ path declared accepted, (MergeError.conflictingRoots path declared accepted).message =
      "Conflicting output_root in " ++ path ++ ": '" ++ declared ++ "' (already '" ++ accepted ++
        "')") ∧
    ∀ id path, (MergeError.duplicateTarget id path).message =
      "Duplicate target '" ++ id ++ "' in " ++ path := by
  refine ⟨fun _ => Target.isKept_iff, ⟨?_, ?_⟩, fun g h => ?_, fun _ => merge?_eq_error,
    fun _ _ _ => rfl, fun _ _ => rfl⟩
  · rintro ⟨g, h⟩
    obtain ⟨hroots, hids⟩ := (merge?_eq_ok.mp h).1
    exact ⟨hroots, hids⟩
  · rintro ⟨hroots, hids⟩
    exact ⟨_, merge?_eq_ok.mpr ⟨⟨hroots, hids⟩, rfl⟩⟩
  · obtain ⟨hmergeable, rfl⟩ := merge?_eq_ok.mp h
    rw [Graph.ofTargets_of_nodup _ hmergeable.ids]
    refine ⟨rfl, fun root hroot => ?_, fun hnone => ?_⟩
    · rw [hmergeable.head?_declaredRoots.mpr hroot]
      rfl
    · rw [hnone]
      rfl

/-- The second manifest repeats a target after one that is skipped, the third declares another
output root. -/
def clashing : List (String × Manifest) :=
  [("app.toml", ⟨some "out", [{ id := "app", installName := "app" }]⟩),
   ("lib.toml", ⟨some "out", [{ id := "app", installName := " " }, { id := "lib", installName := "lib.a" },
      { id := "app", installName := "app.bak" }]⟩),
   ("tool.toml", ⟨some "host", [{ id := "tool", installName := "tool" }]⟩)]

theorem merge?_outcome_clashing :
    merge? clashing = .error (.duplicateTarget "app" "lib.toml") ∧
    (∃ before path m after, clashing = before ++ (path, m) :: after ∧ Mergeable before ∧
      Violates before path m (.duplicateTarget "app" "lib.toml")) ∧
    ∃ g, merge? (clashing.take 1) = .ok g ∧
      g.entries = (keptTargets (clashing.take 1)).map (fun t => (t.id, t)) ∧
      ∀ root ∈ declaredRoots (clashing.take 1), g.outputRoot = root := by
  obtain ⟨-, -, -, hfail, -⟩ := merge?_outcome clashing
  obtain ⟨-, -, hmerged, -⟩ := merge?_outcome (clashing.take 1)
  obtain ⟨hentries, hroots, -⟩ := hmerged _ rfl
  exact ⟨rfl, (hfail _).mp rfl, _, rfl, hentries, hroots⟩

end Manifest

end LicenseNotice
