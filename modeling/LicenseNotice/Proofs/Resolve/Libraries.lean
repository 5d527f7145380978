import LicenseNotice.Proofs.LibraryName
import LicenseNotice.Proofs.Manifest.Violation
import LicenseNotice.Proofs.Report.Lines
import LicenseNotice.Proofs.Resolve.Obligations
import LicenseNotice.Proofs.Section.Grouping

/-! # Libraries that obligations are attributed to

In a graph merged from manifests every install name has something in it. So an obligation is put down
to a library without a name only for a condition whose license text lies in a directory with a blank
name, or that is left with an install name whose last component is blank or missing.
-/

namespace LicenseNotice

set_option autoImplicit false

open LibraryName (Nameless projectOfText?)

variable {manifests : List (String × Manifest)} {g : Graph} {roots : List String}
  {set : ResolutionSet}

namespace Graph

theorem exists_declared_of_mem (hg : g.KeyedById) (hset : g.resolve roots = .ok set)
    {r : Resolution} (hr : r ∈ set.toList) :
    ∃ origin ∈ g.targets, ∃ condition ∈ origin.conditions, r.origin = origin.id ∧
      r.notice = condition.noticeKey ∧ r.library = libraryName origin condition := by
  obtain ⟨-, targets, shipped, table, walks, hroots, hshipped, htable, hwalks, rfl⟩ :=
    resolve_eq_ok.mp hset
  obtain ⟨chain, origin, condition, hobliges, rfl⟩ :=
    (mem_discovered hg hroots hshipped htable hwalks).mp (ResolutionSet.mem_of_mem_ofList hr)
  have hlast := hobliges.walked.ships hobliges.root
  exact ⟨origin, hobliges.contributes.mem_targets hlast.mem_targets, condition, hobliges.declared,
    rfl, rfl, rfl⟩

/-- An obligation has a blank library exactly if its condition is nameless, which in a merged graph
takes a blank directory of a license text or an install name with a slash; and a heading of a report
names a library unless a nameless condition of that notice is behind it. -/
theorem library_blank_iff_nameless (hmerge : Manifest.merge? manifests = .ok g)
    (hset : g.resolve roots = .ok set) :
    (∀ r ∈ set.toList, ∃ origin ∈ g.targets, ∃ condition ∈ origin.conditions,
      r.origin = origin.id ∧ r.notice = condition.noticeKey ∧
      (Text.trim r.library = "" ↔ Nameless origin condition)) ∧
    (∀ origin ∈ g.targets, ∀ condition, Nameless origin condition →
      (∃ project ∈ condition.text.bind projectOfText?, Text.trim project = "") ∨
        '/' ∈ origin.installName.toList) ∧
    ∀ s ∈ set.sections, ∀ block ∈ s.blocks, ∀ leads, ∃ below,
      TextReport.blockText leads block =
        TextReport.line (TextReport.heading block.library) ++ below ∧
      (Text.trim block.library = "" → ∃ origin ∈ g.targets, ∃ condition ∈ origin.conditions,
        s.notice = condition.noticeKey ∧ Nameless origin condition) := by
  have hdeclared := fun r hr =>
    exists_declared_of_mem (keyedById_of_merge? hmerge) hset (r := r) hr
  refine ⟨fun r hr => ?_, fun origin horigin condition hnameless => ?_,
    fun s hs block hblock leads => ?_⟩
  · obtain ⟨origin, horigin, condition, hcondition, hid, hnotice, hlibrary⟩ := hdeclared r hr
    refine ⟨origin, horigin, condition, hcondition, hid, hnotice, ?_⟩
    rw [hlibrary]
    exact LibraryName.trim_libraryName_eq_empty_iff
  · cases hproject : condition.text.bind projectOfText? with
    | some project => exact .inl ⟨project, rfl, hnameless.project project hproject⟩
    | none =>
      have hname := (Target.isKept_iff.mp (Manifest.isKept_of_mem_targets hmerge horigin)).2
      exact .inr (hnameless.slash_mem hname hproject)
  · refine ⟨_, by rw [TextReport.blockText, String.append_assoc]; rfl, fun hblank => ?_⟩
    obtain ⟨⟨r, hr, hnotice, hlibrary⟩, -⟩ := (ResolutionSet.mem_blocks_sections hs).mp hblock
    obtain ⟨origin, horigin, condition, hcondition, -, hkey, hname⟩ := hdeclared r hr
    refine ⟨origin, horigin, condition, hcondition, hnotice.symm.trans hkey, ?_⟩
    rw [← LibraryName.trim_libraryName_eq_empty_iff, ← hname, hlibrary]
    exact hblank

section Files

/-- A library in a package without a name, with a license text in a directory without one. -/
def plainLibrary : Target :=
  { id := "libz", installName := "lib/libz.so/", package := some " "
    conditions := [⟨.notice, some "external/ /NOTICE", none⟩, ⟨.restricted, none, some ""⟩] }

theorem library_blank_iff_nameless_plain :
    Manifest.merge? [("lib.toml", ⟨none, [plainLibrary]⟩)] = .ok (.ofTargets "out" [plainLibrary]) ∧
    ∃ set, (ofTargets "out" [plainLibrary]).resolve ["libz"] = .ok set ∧
      set.toList.map (·.library) = [" ", "libz.so"] ∧
      (∀ r ∈ set.toList, ∃ origin ∈ (ofTargets "out" [plainLibrary]).targets,
        ∃ condition ∈ origin.conditions, r.origin = origin.id ∧ r.notice = condition.noticeKey ∧
        (Text.trim r.library = "" ↔ Nameless origin condition)) := by
  have hmerge : Manifest.merge? [("lib.toml", ⟨none, [plainLibrary]⟩)] =
      .ok (.ofTargets "out" [plainLibrary]) := rfl
  have hset : (ofTargets "out" [plainLibrary]).resolve ["libz"] = .ok _ := rfl
  exact ⟨hmerge, _, hset, by decide, (library_blank_iff_nameless hmerge hset).1⟩

/-- A target that stands for a whole directory. -/
def filesTarget : Target :=
  { id := "files", installName := "/", conditions := [⟨.notice, none, none⟩] }

/-- The install name is kept, but it has no component, and nothing stands for the library. -/
theorem library_without_name :
    Manifest.merge? [("files.toml", ⟨none, [filesTarget]⟩)] = .ok (.ofTargets "out" [filesTarget]) ∧
    ∃ set, (ofTargets "out" [filesTarget]).resolve ["files"] = .ok set ∧
      set.toList = [⟨⟨.notice, none⟩, "", "out", "files", "files"⟩] ∧
      Text.trim "" = "" ∧
      TextReport.render {} .empty set.sections =
        TextReport.horizontalRule ++ "\n used by:\n  out\n\n%%%Notice License%%%\n\n" :=
  ⟨rfl, _, rfl, by decide, by decide, by decide⟩

end Files

end Graph

end LicenseNotice
