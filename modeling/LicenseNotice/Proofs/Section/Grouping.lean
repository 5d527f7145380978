import Mathlib.Algebra.Ring.Nat
import LicenseNotice.Proofs.Resolution
import LicenseNotice.Proofs.Section.Index
import LicenseNotice.Proofs.Text.ByteOrder

/-! # Grouping loses nothing and invents nothing

A notice may wait for many libraries, but only the first of them emits it; its section then goes
back to the index for all of its libraries.
-/

namespace LicenseNotice

set_option autoImplicit false

namespace Grouping

variable {index : Index} {notice : NoticeKey} {library : String} {out : List NoticeKey}

section Emission

variable (unique : (Keyed.keys index).Nodup)

include unique

theorem emit_perm (out : List NoticeKey) (library : String) : (emit index out library).Perm
    (out ++ (Keyed.keys index).filter fun notice =>
      notice ∉ out ∧ library ∈ Keyed.keys (index.blocksOf notice)) := by
  rw [emit, ← Index.map_fst_waiting unique]
  exact ((sortBy_perm comparePending _).map _).append_left out

theorem mem_emit : notice ∈ emit index out library ↔
    notice ∈ out ∨ library ∈ Keyed.keys (index.blocksOf notice) := by
  rw [(emit_perm unique out library).mem_iff, List.mem_append, List.mem_filter, decide_eq_true_iff]
  constructor
  · exact fun h => h.imp_right (·.2.2)
  · intro h
    by_cases hout : notice ∈ out
    · exact .inl hout
    · have hlibrary := h.resolve_left hout
      exact .inr ⟨Index.mem_keys_of_library hlibrary, hout, hlibrary⟩

theorem nodup_emit (h : out.Nodup) (library : String) : (emit index out library).Nodup := by
  rw [(emit_perm unique out library).nodup_iff, List.nodup_append]
  refine ⟨h, unique.filter _, ?_⟩
  rintro _ hout _ hnew rfl
  exact (decide_eq_true_iff.mp (List.mem_filter.mp hnew).2).1 hout

theorem mem_foldl_emit {libraries : List String} : notice ∈ libraries.foldl (emit index) out ↔
    notice ∈ out ∨ ∃ library ∈ libraries, library ∈ Keyed.keys (index.blocksOf notice) := by
  induction libraries generalizing out with
  | nil => simp
  | cons library rest ih => rw [List.foldl_cons, ih, mem_emit unique, or_assoc, List.exists_mem_cons_iff]

theorem nodup_foldl_emit (h : out.Nodup) (libraries : List String) :
    (libraries.foldl (emit index) out).Nodup := by
  induction libraries generalizing out with
  | nil => exact h
  | cons library rest ih => exact ih (nodup_emit unique h library)

/-- Every notice that some library takes part in is out in the end. -/
theorem mem_order : notice ∈ order index ↔
    ∃ library, library ∈ Keyed.keys (index.blocksOf notice) := by
  rw [order, mem_foldl_emit unique]
  constructor
  · rintro (h | ⟨library, _, h⟩)
    · cases h
    · exact ⟨library, h⟩
  · rintro ⟨library, h⟩
    exact .inr ⟨library, (Index.mem_libraries unique).mpr ⟨notice, h⟩, h⟩

theorem nodup_order : (order index).Nodup := nodup_foldl_emit unique List.nodup_nil _

end Emission

theorem libraries_sectionFor (index : Index) (notice : NoticeKey) :
    (sectionFor index notice).libraries = sortNames (Keyed.keys (index.blocksOf notice)) := by
  rw [Section.libraries, sectionFor, List.map_map]
  exact List.map_id _

theorem mem_blocks {block : LibraryBlock} : block ∈ (sectionFor index notice).blocks ↔
    block.library ∈ Keyed.keys (index.blocksOf notice) ∧
      block.installs = index.installsOf notice block.library := by
  rw [sectionFor, List.mem_map]
  simp only [sortNames, mem_sortBy]
  constructor
  · rintro ⟨library, hlibrary, rfl⟩
    exact ⟨hlibrary, rfl⟩
  · rintro ⟨hlibrary, hinstalls⟩
    exact ⟨_, hlibrary, hinstalls ▸ rfl⟩

end Grouping

def Section.triples (s : Section) : List Triple :=
  s.blocks.flatMap fun block => block.installs.map fun path => ⟨s.notice, block.library, path⟩

theorem Section.mem_triples {s : Section} {triple : Triple} : triple ∈ s.triples ↔
    s.notice = triple.notice ∧
      ∃ block ∈ s.blocks, block.library = triple.library ∧ triple.installPath ∈ block.installs := by
  simp only [triples, List.mem_flatMap, List.mem_map]
  constructor
  · rintro ⟨block, hblock, path, hpath, rfl⟩
    exact ⟨rfl, block, hblock, rfl, hpath⟩
  · rintro ⟨hnotice, block, hblock, hlibrary, hpath⟩
    exact ⟨block, hblock, _, hpath, by rw [hnotice, hlibrary]⟩

theorem Section.nodup_triples {s : Section} (libraries : s.libraries.Nodup)
    (installs : ∀ block ∈ s.blocks, block.installs.Nodup) : s.triples.Nodup := by
  refine List.nodup_flatMap.mpr ⟨fun block hblock => ?_, ?_⟩
  · exact (installs block hblock).map fun _ _ h => congrArg Triple.installPath h
  · refine (List.pairwise_map.mp libraries).imp fun {a b} hne triple ha hb => ?_
    obtain ⟨_, _, rfl⟩ := List.mem_map.mp ha
    obtain ⟨_, _, h⟩ := List.mem_map.mp hb
    exact hne (congrArg Triple.library h).symm

theorem Section.length_triples (s : Section) : s.triples.length = s.installCount := by
  simp [triples, installCount, List.length_flatMap]

/-- Sections report exactly what is in a set, each triple once, under one section for a notice and
one block for a library. -/
structure Groups (set : ResolutionSet) (sections : List Section) : Prop where
  reported : ∀ notice library path,
    (∃ s ∈ sections, s.notice = notice ∧
      ∃ block ∈ s.blocks, block.library = library ∧ path ∈ block.installs) ↔
    ∃ r ∈ set.toList, r.notice = notice ∧ r.library = library ∧ r.installPath = path
  once : (sections.flatMap (·.triples)).Nodup
  counted : (sections.map (·.installCount)).sum = set.size
  notices : (sections.map (·.notice)).Nodup
  inhabited : ∀ s ∈ sections, s.blocks ≠ [] ∧ ∀ block ∈ s.blocks, block.installs ≠ []
  increasing : ∀ s ∈ sections, (s.libraries.map Text.bytes).Pairwise (· < ·)
  discovery : ∀ s ∈ sections, ∀ block ∈ s.blocks, block.installs =
    (set.toList.filter fun r => r.notice = s.notice ∧ r.library = block.library).map (·.installPath)

namespace ResolutionSet

open Grouping (sectionFor order Index)

variable {set : ResolutionSet} {s : Section}

theorem map_notice_sections (set : ResolutionSet) :
    set.sections.map (·.notice) = order (Index.ofResolutions set.toList) := by
  rw [sections, List.map_map]
  exact List.map_id _

theorem mem_sections : s ∈ set.sections ↔ (∃ r ∈ set.toList, r.notice = s.notice) ∧
    s = sectionFor (Index.ofResolutions set.toList) s.notice := by
  have hpart : ∀ notice, notice ∈ order (Index.ofResolutions set.toList) ↔
      ∃ r ∈ set.toList, r.notice = notice := fun notice => by
    simp [Grouping.mem_order (Index.nodup_keys _), Index.mem_keys_blocksOf]
  rw [sections, List.mem_map]
  constructor
  · rintro ⟨notice, hnotice, rfl⟩
    exact ⟨(hpart notice).mp hnotice, rfl⟩
  · rintro ⟨hnotice, hs⟩
    exact ⟨s.notice, (hpart _).mpr hnotice, hs.symm⟩

/-- A block of a section is what the set has for its notice and library. -/
theorem mem_blocks_sections {block : LibraryBlock} (hs : s ∈ set.sections) : block ∈ s.blocks ↔
    (∃ r ∈ set.toList, r.notice = s.notice ∧ r.library = block.library) ∧
      block.installs = (Index.ofResolutions set.toList).installsOf s.notice block.library := by
  have hblocks := congrArg Section.blocks (mem_sections.mp hs).2
  rw [hblocks, Grouping.mem_blocks, Index.mem_keys_blocksOf]

theorem block_mem_sections {r : Resolution} (hs : s ∈ set.sections) (hr : r ∈ set.toList)
    (hnotice : r.notice = s.notice) :
    ⟨r.library, (Index.ofResolutions set.toList).installsOf s.notice r.library⟩ ∈ s.blocks :=
  (mem_blocks_sections hs).mpr ⟨⟨r, hr, hnotice, rfl⟩, rfl⟩

theorem reported_sections (set : ResolutionSet) (notice : NoticeKey) (library path : String) :
    (∃ s ∈ set.sections, s.notice = notice ∧
      ∃ block ∈ s.blocks, block.library = library ∧ path ∈ block.installs) ↔
    ∃ r ∈ set.toList, r.notice = notice ∧ r.library = library ∧ r.installPath = path := by
  rw [← Index.mem_installsOf]
  constructor
  · rintro ⟨s, hs, rfl, block, hblock, rfl, hpath⟩
    exact ((mem_blocks_sections hs).mp hblock).2 ▸ hpath
  · intro hpath
    obtain ⟨r, hr, rfl, rfl, _⟩ := Index.mem_installsOf.mp hpath
    have hs : sectionFor (Index.ofResolutions set.toList) r.notice ∈ set.sections :=
      mem_sections.mpr ⟨⟨r, hr, rfl⟩, rfl⟩
    exact ⟨_, hs, rfl, _, block_mem_sections hs hr rfl, rfl, hpath⟩

theorem libraries_increasing (hs : s ∈ set.sections) :
    (s.libraries.map Text.bytes).Pairwise (· < ·) := by
  have hlibraries := congrArg Section.libraries (mem_sections.mp hs).2
  rw [hlibraries, Grouping.libraries_sectionFor, List.pairwise_map]
  exact (sortBy_increasing compare (Index.nodup_keys_blocksOf _ _)).imp Text.bytes_compare_lt

theorem nodup_libraries (hs : s ∈ set.sections) : s.libraries.Nodup := by
  refine (List.pairwise_map.mp (libraries_increasing hs)).imp ?_
  rintro _ _ hlt rfl
  exact List.lt_irrefl _ hlt

theorem nodup_notices (set : ResolutionSet) : (set.sections.map (·.notice)).Nodup :=
  map_notice_sections set ▸ Grouping.nodup_order (Index.nodup_keys _)

theorem discovery_sections (unique : (set.toList.map (·.triple)).Nodup) (hs : s ∈ set.sections)
    {block : LibraryBlock} (hblock : block ∈ s.blocks) : block.installs =
      (set.toList.filter fun r => r.notice = s.notice ∧ r.library = block.library).map (·.installPath) :=
  ((mem_blocks_sections hs).mp hblock).2.trans (Index.installsOf_of_nodup unique _ _)

/-- Different sections have different notices, so no triple is in two of them. -/
theorem nodup_triples_sections (set : ResolutionSet) : (set.sections.flatMap (·.triples)).Nodup := by
  refine List.nodup_flatMap.mpr ⟨fun s hs => ?_, ?_⟩
  · refine Section.nodup_triples (nodup_libraries hs) fun block hblock => ?_
    rw [((mem_blocks_sections hs).mp hblock).2]
    exact Index.nodup_installsOf _ _ _
  · refine (List.pairwise_map.mp (nodup_notices set)).imp fun {a b} hne triple ha hb => ?_
    exact hne ((Section.mem_triples.mp ha).1.trans (Section.mem_triples.mp hb).1.symm)

theorem triples_sections_perm (unique : (set.toList.map (·.triple)).Nodup) :
    (set.sections.flatMap (·.triples)).Perm (set.toList.map (·.triple)) := by
  refine (List.perm_ext_iff_of_nodup (nodup_triples_sections set) unique).mpr ?_
  rintro ⟨notice, library, path⟩
  rw [List.mem_flatMap, List.mem_map]
  simp only [Section.mem_triples, reported_sections, Resolution.triple, Triple.mk.injEq]

theorem inhabited_sections (hs : s ∈ set.sections) :
    s.blocks ≠ [] ∧ ∀ block ∈ s.blocks, block.installs ≠ [] := by
  constructor
  · obtain ⟨r, hr, hnotice⟩ := (mem_sections.mp hs).1
    exact List.ne_nil_of_mem (block_mem_sections hs hr hnotice)
  · intro block hblock
    obtain ⟨⟨r, hr, hnotice, hlibrary⟩, hinstalls⟩ := (mem_blocks_sections hs).mp hblock
    rw [hinstalls]
    exact List.ne_nil_of_mem (Index.mem_installsOf.mpr ⟨r, hr, hnotice, hlibrary, rfl⟩)

theorem sum_installCount_sections (unique : (set.toList.map (·.triple)).Nodup) :
    (set.sections.map (·.installCount)).sum = set.size := by
  have h := (triples_sections_perm unique).length_eq
  rw [List.length_flatMap, List.length_map] at h
  simp only [Section.length_triples] at h
  exact h

/-- Grouping a set of resolutions reports each of them once and nothing else. -/
theorem groups_sections (rs : List Resolution) : Groups (ofList rs) (ofList rs).sections where
  reported := reported_sections _
  once := nodup_triples_sections _
  counted := sum_installCount_sections (nodup_triples rs)
  notices := nodup_notices _
  inhabited _ := inhabited_sections
  increasing _ := libraries_increasing
  discovery _ hs _ := discovery_sections (nodup_triples rs) hs

end ResolutionSet

end LicenseNotice
