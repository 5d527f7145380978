import Mathlib.Data.List.Forall2
import LicenseNotice.Proofs.Section.Order

/-! # Sections of the same triples

Sections depend on which triples were found, not on the order in which they were found, except for
the order of the installs in a block.
-/

namespace LicenseNotice

set_option autoImplicit false

/-- The same library with the installs in another order. -/
def LibraryBlock.Reorders (a b : LibraryBlock) : Prop :=
  a.library = b.library ∧ a.installs.Perm b.installs

/-- The same notice over the same libraries in the same order. -/
def Section.Reorders (a b : Section) : Prop :=
  a.notice = b.notice ∧ List.Forall₂ LibraryBlock.Reorders a.blocks b.blocks

namespace Grouping

/-- Two indices hold the same libraries of each notice and the same installs of each of those. -/
structure Index.Reorders (index index' : Index) : Prop where
  libraries : ∀ notice library, library ∈ Keyed.keys (index.blocksOf notice) ↔
    library ∈ Keyed.keys (index'.blocksOf notice)
  installs : ∀ notice library,
    (index.installsOf notice library).Perm (index'.installsOf notice library)

namespace Index.Reorders

variable {index index' : Index} (h : index.Reorders index')

section Order

variable (unique : (Keyed.keys index).Nodup) (unique' : (Keyed.keys index').Nodup)

include h unique unique'

theorem libraries_eq : index.libraries = index'.libraries := by
  refine sortBy_eq_of_perm compare ?_
  rw [List.perm_ext_iff_of_nodup (nodup_distinct _) (nodup_distinct _)]
  intro library
  have hmem : library ∈ index.libraries ↔ _ := Index.mem_libraries unique
  have hmem' : library ∈ index'.libraries ↔ _ := Index.mem_libraries unique'
  rw [Index.libraries, sortNames, mem_sortBy] at hmem hmem'
  rw [hmem, hmem']
  exact exists_congr fun notice => h.libraries notice library

theorem emit_eq (out : List NoticeKey) (library : String) :
    emit index out library = emit index' out library := by
  have hwaiting : (index.waiting out library).Perm (index'.waiting out library) := by
    rw [List.perm_ext_iff_of_nodup (nodup_waiting unique _ _) (nodup_waiting unique' _ _)]
    rintro ⟨notice, count⟩
    rw [mem_waiting unique, mem_waiting unique', h.libraries, (h.installs _ _).length_eq]
  rw [emit, emit, sortBy_eq_of_perm comparePending hwaiting]

theorem order_eq : order index = order index' := by
  have hemit : emit index = emit index' := by
    funext out library
    exact h.emit_eq unique unique' out library
  rw [order, order, h.libraries_eq unique unique', hemit]

end Order

include h in
theorem sectionFor {notice : NoticeKey} (unique : (Keyed.keys (index.blocksOf notice)).Nodup)
    (unique' : (Keyed.keys (index'.blocksOf notice)).Nodup) :
    (sectionFor index notice).Reorders (sectionFor index' notice) := by
  have hnames : sortNames (Keyed.keys (index.blocksOf notice)) =
      sortNames (Keyed.keys (index'.blocksOf notice)) :=
    sortBy_eq_of_perm compare ((List.perm_ext_iff_of_nodup unique unique').mpr (h.libraries notice))
  refine ⟨rfl, ?_⟩
  rw [Grouping.sectionFor, Grouping.sectionFor, hnames, List.forall₂_map_left_iff,
    List.forall₂_map_right_iff, List.forall₂_same]
  exact fun library _ => ⟨rfl, h.installs notice library⟩

end Index.Reorders

theorem Index.mem_installsOf_iff_triple {rs : List Resolution} {notice : NoticeKey}
    {library path : String} : path ∈ (ofResolutions rs).installsOf notice library ↔
      ⟨notice, library, path⟩ ∈ rs.map (·.triple) := by
  simp [mem_installsOf, Resolution.triple]

theorem Index.reorders_ofResolutions {rs rs' : List Resolution}
    (same : ∀ triple, triple ∈ rs.map (·.triple) ↔ triple ∈ rs'.map (·.triple)) :
    (ofResolutions rs).Reorders (ofResolutions rs') where
  libraries notice library := by
    have hinstalled : ∀ rs : List Resolution,
        library ∈ Keyed.keys ((ofResolutions rs).blocksOf notice) ↔
          ∃ path, ⟨notice, library, path⟩ ∈ rs.map (·.triple) := fun rs => by
      simp [mem_keys_blocksOf, Resolution.triple]
    rw [hinstalled, hinstalled]
    exact exists_congr fun path => same _
  installs notice library := by
    rw [List.perm_ext_iff_of_nodup (nodup_installsOf _ _ _) (nodup_installsOf _ _ _)]
    intro path
    rw [mem_installsOf_iff_triple, mem_installsOf_iff_triple]
    exact same _

end Grouping

namespace ResolutionSet

open Grouping (Index)

theorem precedes_sections (set : ResolutionSet) : set.sections.Pairwise Section.Precedes :=
  List.pairwise_map.mpr (Grouping.ordered_order (Index.nodup_keys _))

/-- No other arrangement of the sections is in order. -/
theorem eq_sections_of_precedes {set : ResolutionSet} {ss : List Section}
    (hperm : ss.Perm set.sections) (hss : ss.Pairwise Section.Precedes) : ss = set.sections :=
  hperm.eq_of_pairwise (fun _ _ _ _ h h' => absurd h' h.asymm) hss (precedes_sections set)

theorem reorders_sections {set set' : ResolutionSet}
    (same : ∀ triple, triple ∈ set.toList.map (·.triple) ↔ triple ∈ set'.toList.map (·.triple)) :
    List.Forall₂ Section.Reorders set.sections set'.sections := by
  have h := Index.reorders_ofResolutions same
  have horder := h.order_eq (Index.nodup_keys _) (Index.nodup_keys _)
  rw [sections, sections, horder, List.forall₂_map_left_iff, List.forall₂_map_right_iff,
    List.forall₂_same]
  exact fun notice _ => h.sectionFor (Index.nodup_keys_blocksOf _ _) (Index.nodup_keys_blocksOf _ _)

/-- The sections of a set are in strict order, and in no other arrangement are they. Which sections
and blocks there are, in which order and with which installs in each, depends on the triples alone,
so on no order of insertion. -/
theorem sections_in_order (rs : List Resolution) :
    (ofList rs).sections.Pairwise Section.Precedes ∧
    (∀ ss : List Section, ss.Perm (ofList rs).sections → ss.Pairwise Section.Precedes →
      ss = (ofList rs).sections) ∧
    (∀ rs' : List Resolution, (∀ triple, triple ∈ rs.map (·.triple) ↔ triple ∈ rs'.map (·.triple)) →
      List.Forall₂ Section.Reorders (ofList rs).sections (ofList rs').sections) ∧
    ∀ rs' : List Resolution, rs.Perm rs' →
      List.Forall₂ Section.Reorders (ofList rs).sections (ofList rs').sections := by
  have hsame : ∀ rs' : List Resolution,
      (∀ triple, triple ∈ rs.map (·.triple) ↔ triple ∈ rs'.map (·.triple)) →
      List.Forall₂ Section.Reorders (ofList rs).sections (ofList rs').sections := by
    intro rs' same
    refine reorders_sections fun triple => ?_
    rw [mem_triples_ofList, mem_triples_ofList, same]
  exact ⟨precedes_sections _, fun ss => eq_sections_of_precedes, hsame,
    fun rs' hperm => hsame rs' fun _ => (hperm.map _).mem_iff⟩

/-- A notice that covers two installs of one library and one of another, beside a notice with the
shorter list of installs. -/
def sampleFindings : List Resolution :=
  [⟨⟨.notice, some "external/zlib/NOTICE"⟩, "zlib", "out/lib/libz.so", "libz", "libz"⟩,
   ⟨⟨.firstParty, none⟩, "app", "out/bin/app", "app", "app"⟩,
   ⟨⟨.notice, some "external/zlib/NOTICE"⟩, "app", "out/bin/app", "app", "shim"⟩,
   ⟨⟨.notice, some "external/zlib/NOTICE"⟩, "app", "out/bin/tool", "tool", "shim"⟩]

def sampleSections : List Section :=
  [⟨⟨.notice, some "external/zlib/NOTICE"⟩,
    [⟨"app", ["out/bin/app", "out/bin/tool"]⟩, ⟨"zlib", ["out/lib/libz.so"]⟩]⟩,
   ⟨⟨.firstParty, none⟩, [⟨"app", ["out/bin/app"]⟩]⟩]

theorem sections_in_order_sample :
    sampleSections.Perm (ofList sampleFindings).sections ∧
    sampleSections.Pairwise Section.Precedes ∧ sampleSections = (ofList sampleFindings).sections ∧
    (∀ triple, triple ∈ sampleFindings.map (·.triple) ↔
      triple ∈ (sampleFindings ++ sampleFindings).map (·.triple)) ∧
    List.Forall₂ Section.Reorders (ofList sampleFindings).sections
      (ofList (sampleFindings ++ sampleFindings)).sections ∧
    sampleFindings.Perm sampleFindings.reverse ∧
    List.Forall₂ Section.Reorders (ofList sampleFindings).sections
      (ofList sampleFindings.reverse).sections := by
  have hsections : sampleSections.Perm (ofList sampleFindings).sections := by decide
  have hordered : sampleSections.Pairwise Section.Precedes :=
    List.pairwise_pair.mpr ⟨_, _, rfl, rfl, .inr ⟨rfl, .inl (by decide)⟩⟩
  have hsame : ∀ triple, triple ∈ sampleFindings.map (·.triple) ↔
      triple ∈ (sampleFindings ++ sampleFindings).map (·.triple) := by
    simp only [List.map_append, List.mem_append, or_self, implies_true]
  have hperm : sampleFindings.Perm sampleFindings.reverse := (List.reverse_perm _).symm
  obtain ⟨-, hunique, htriples, hpermuted⟩ := sections_in_order sampleFindings
  exact ⟨hsections, hordered, hunique _ hsections hordered, hsame, htriples _ hsame, hperm,
    hpermuted _ hperm⟩

end ResolutionSet

end LicenseNotice
