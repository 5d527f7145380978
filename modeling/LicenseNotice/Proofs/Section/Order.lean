import LicenseNotice.Proofs.Section.Grouping

/-! # The order of sections

Sections are emitted library by library, but where a section ends up is said by the section alone:
by the name of its first block, the installs of that block, its marker and its notice. The loop over
the libraries keeps the notices that are out in that order, because a notice goes out with the first
of its libraries that is visited.
-/

namespace LicenseNotice

set_option autoImplicit false

/-- No text comes before any text, and texts come in the order of their bytes. -/
def Text.Precedes : Option String → Option String → Prop
  | none, some _ => True
  | some a, some b => Text.bytes a < Text.bytes b
  | _, none => False

def NoticeKey.Precedes (a b : NoticeKey) : Prop :=
  a.category.rank < b.category.rank ∨
    a.category.rank = b.category.rank ∧ Text.Precedes a.text b.text

/-- The first blocks decide by name, then by their installs, more of them coming first; then the
shorter marker comes first, and then the notices decide. -/
def Section.Precedes (a b : Section) : Prop :=
  ∃ first other, a.blocks.head? = some first ∧ b.blocks.head? = some other ∧
    (Text.bytes first.library < Text.bytes other.library ∨ first.library = other.library ∧
      (other.installs.length < first.installs.length ∨
        first.installs.length = other.installs.length ∧
          (a.notice.marker.length < b.notice.marker.length ∨
            a.notice.marker.length = b.notice.marker.length ∧ a.notice.Precedes b.notice)))

/-! The comparisons -/

theorem Category.rank_injective {a b : Category} (h : a.rank = b.rank) : a = b := by
  cases a <;> cases b <;> simp [rank] at h ⊢

theorem Text.compare_eq_lt_iff {a b : String} : compare a b = .lt ↔ Text.bytes a < Text.bytes b :=
  compare_lt_iff_lt.trans (Text.bytes_lt_iff a b).symm

namespace NoticeKey

theorem compareText_eq_compare (a b : Option String) : compareText a b = compare a b := by
  cases a <;> cases b <;> rfl

theorem compareText_eq_lt_iff {a b : Option String} : compareText a b = .lt ↔ Text.Precedes a b := by
  cases a <;> cases b <;> simp [compareText, Text.Precedes, Text.compare_eq_lt_iff]

theorem compare_eq_compareLex : (compare : NoticeKey → NoticeKey → Ordering) =
    compareLex (compareOn (·.category.rank)) (compareOn (·.text)) := by
  funext a b
  exact congrArg (Ordering.then _) (compareText_eq_compare a.text b.text)

instance : Std.TransOrd NoticeKey := by
  rw [Std.TransOrd, compare_eq_compareLex]
  infer_instance

instance : Std.LawfulEqOrd NoticeKey where
  eq_of_compare {a b} h := by
    rw [compare_eq_compareLex] at h
    obtain ⟨hrank, htext⟩ := Ordering.then_eq_eq.mp h
    have hcategory := Category.rank_injective (Nat.compare_eq_eq.mp hrank)
    have htext := Std.LawfulEqOrd.eq_of_compare htext
    cases a
    cases b
    cases hcategory
    cases htext
    rfl

theorem compare_eq_lt_iff {a b : NoticeKey} : compare a b = .lt ↔ a.Precedes b := by
  rw [Precedes, ← compareText_eq_lt_iff, ← Nat.compare_eq_lt, ← Nat.compare_eq_eq]
  exact Ordering.then_eq_lt

end NoticeKey

namespace Grouping

theorem comparePending_eq_compareLex : comparePending = compareLex
    (compareLex (fun a b => compareOn (·.2) b a) (compareOn (·.1.marker.length))) (compareOn (·.1)) :=
  rfl

instance : Std.TransCmp comparePending := by
  have : Std.TransCmp fun a b : NoticeKey × Nat => compareOn (·.2) b a := .opposite
  rw [comparePending_eq_compareLex]
  infer_instance

instance : Std.LawfulEqCmp comparePending where
  eq_of_compare {a b} h := by
    obtain ⟨hothers, hnotice⟩ := Ordering.then_eq_eq.mp h
    have hcount := Nat.compare_eq_eq.mp (Ordering.then_eq_eq.mp hothers).1
    exact Prod.ext (Std.LawfulEqOrd.eq_of_compare hnotice) hcount.symm

theorem comparePending_eq_lt_iff {a b : NoticeKey × Nat} : comparePending a b = .lt ↔
    b.2 < a.2 ∨ a.2 = b.2 ∧ (a.1.marker.length < b.1.marker.length ∨
      a.1.marker.length = b.1.marker.length ∧ a.1.Precedes b.1) := by
  rw [comparePending, Ordering.then_eq_lt, Ordering.then_eq_lt, Ordering.then_eq_eq,
    NoticeKey.compare_eq_lt_iff, Nat.compare_eq_lt, Nat.compare_eq_lt, Nat.compare_eq_eq,
    Nat.compare_eq_eq, or_assoc, and_assoc, ← and_or_left, eq_comm (a := b.2)]

end Grouping

namespace Section

/-- Sections with the same first library are ordered as the notices that wait for that library. -/
theorem precedes_iff {a b : Section} : a.Precedes b ↔
    ∃ first other, a.blocks.head? = some first ∧ b.blocks.head? = some other ∧
      (Text.bytes first.library < Text.bytes other.library ∨ first.library = other.library ∧
        Grouping.comparePending (a.notice, first.installs.length)
          (b.notice, other.installs.length) = .lt) := by
  simp only [Precedes, Grouping.comparePending_eq_lt_iff]

theorem Precedes.asymm {a b : Section} (h : a.Precedes b) : ¬ b.Precedes a := by
  obtain ⟨first, other, hfirst, hother, h⟩ := precedes_iff.mp h
  intro h'
  obtain ⟨_, _, hother', hfirst', h'⟩ := precedes_iff.mp h'
  cases hfirst.symm.trans hfirst'
  cases hother.symm.trans hother'
  rcases h with h | ⟨hlibrary, h⟩
  · rcases h' with h' | ⟨hlibrary, _⟩
    · exact List.lt_asymm h h'
    · rw [hlibrary] at h
      exact List.lt_irrefl _ h
  · rcases h' with h' | ⟨_, h'⟩
    · rw [hlibrary] at h'
      exact List.lt_irrefl _ h'
    · rw [Std.OrientedCmp.gt_of_lt h] at h'
      cases h'

end Section

namespace Grouping

variable {index : Index} {notice : NoticeKey} {library : String} {libraries : List String}
  {out : List NoticeKey}

section Emission

variable (unique : (Keyed.keys index).Nodup)

include unique

theorem mem_waiting {count : Nat} : (notice, count) ∈ index.waiting out library ↔
    (notice ∉ out ∧ library ∈ Keyed.keys (index.blocksOf notice)) ∧
      count = (index.installsOf notice library).length := by
  rw [Index.waiting_eq unique, List.mem_map]
  simp only [List.mem_filter, decide_eq_true_iff, Prod.mk.injEq]
  constructor
  · rintro ⟨_, ⟨_, h⟩, rfl, rfl⟩
    exact ⟨h, rfl⟩
  · rintro ⟨h, rfl⟩
    exact ⟨notice, ⟨Index.mem_keys_of_library h.2, h⟩, rfl, rfl⟩

theorem nodup_waiting (out : List NoticeKey) (library : String) :
    (index.waiting out library).Nodup := by
  refine .of_map (·.1) ?_
  rw [Index.map_fst_waiting unique]
  exact unique.filter _

end Emission

/-- The first block of a section is that of the smallest library. -/
theorem head?_blocks (hlibrary : library ∈ Keyed.keys (index.blocksOf notice))
    (least : ∀ other ∈ Keyed.keys (index.blocksOf notice), library ≤ other) :
    (sectionFor index notice).blocks.head? = some ⟨library, index.installsOf notice library⟩ := by
  have hhead : (sortNames (Keyed.keys (index.blocksOf notice))).head? = some library :=
    head?_sortBy compare hlibrary fun other hother =>
      Ordering.isLE_iff_ne_gt.mpr (compare_le_iff_le.mpr (least other hother))
  rw [sectionFor, List.head?_map, hhead]
  rfl

/-- How it stands while libraries are visited, with `libraries` still to come: the notices that are
`out` are in order and begin with libraries visited before, and a notice that is not out has all of
its libraries still to come. -/
structure Emitting (index : Index) (libraries : List String) (out : List NoticeKey) : Prop where
  increasing : libraries.Pairwise (· < ·)
  ordered : out.Pairwise fun a b => (sectionFor index a).Precedes (sectionFor index b)
  begun : ∀ notice ∈ out, ∃ first, (sectionFor index notice).blocks.head? = some first ∧
    ∀ library ∈ libraries, first.library < library
  ahead : ∀ notice ∉ out, Keyed.keys (index.blocksOf notice) ⊆ libraries

namespace Emitting

/-- A notice that `library` emits begins with it, since all of its libraries were still to come. -/
theorem begins (h : Emitting index (library :: libraries) out) (hout : notice ∉ out)
    (hlibrary : library ∈ Keyed.keys (index.blocksOf notice)) :
    (sectionFor index notice).blocks.head? = some ⟨library, index.installsOf notice library⟩ := by
  refine head?_blocks hlibrary fun other hother => ?_
  rcases List.mem_cons.mp (h.ahead notice hout hother) with rfl | hlater
  · exact le_rfl
  · exact le_of_lt ((List.pairwise_cons.mp h.increasing).1 other hlater)

theorem ordered_waiting (unique : (Keyed.keys index).Nodup)
    (h : Emitting index (library :: libraries) out) :
    ((sortBy comparePending (index.waiting out library)).map (·.1)).Pairwise
      fun a b => (sectionFor index a).Precedes (sectionFor index b) := by
  rw [List.pairwise_map]
  refine (sortBy_increasing comparePending (nodup_waiting unique out library)).imp_of_mem ?_
  rintro ⟨a, _⟩ ⟨b, _⟩ ha hb hlt
  obtain ⟨⟨hout, hlibrary⟩, rfl⟩ := (mem_waiting unique).mp (mem_sortBy.mp ha)
  obtain ⟨⟨hout', hlibrary'⟩, rfl⟩ := (mem_waiting unique).mp (mem_sortBy.mp hb)
  have hfirst := h.begins hout hlibrary
  have hfirst' := h.begins hout' hlibrary'
  exact Section.precedes_iff.mpr ⟨_, _, hfirst, hfirst', .inr ⟨rfl, hlt⟩⟩

theorem step (unique : (Keyed.keys index).Nodup) (h : Emitting index (library :: libraries) out) :
    Emitting index libraries (emit index out library) := by
  obtain ⟨hlater, hincreasing⟩ := List.pairwise_cons.mp h.increasing
  refine ⟨hincreasing, ?_, fun notice hnotice => ?_, fun notice hnotice => ?_⟩
  · -- What was out before begins with an earlier library than what goes out now.
    refine List.pairwise_append.mpr ⟨h.ordered, h.ordered_waiting unique, fun a ha b hb => ?_⟩
    obtain ⟨first, hfirst, hless⟩ := h.begun a ha
    obtain ⟨⟨b, _⟩, hitem, rfl⟩ := List.mem_map.mp hb
    obtain ⟨⟨hout, hlibrary⟩, _⟩ := (mem_waiting unique).mp (mem_sortBy.mp hitem)
    have hbytes := (Text.bytes_lt_iff _ _).mpr (hless library List.mem_cons_self)
    exact ⟨first, _, hfirst, h.begins hout hlibrary, .inl hbytes⟩
  · by_cases hout : notice ∈ out
    · obtain ⟨first, hfirst, hless⟩ := h.begun notice hout
      exact ⟨first, hfirst, fun other hother => hless other (List.mem_cons_of_mem _ hother)⟩
    · have hlibrary := ((mem_emit unique).mp hnotice).resolve_left hout
      exact ⟨_, h.begins hout hlibrary, hlater⟩
  · -- A notice that is still not out does not take part in the library just visited.
    obtain ⟨hout, hlibrary⟩ := not_or.mp (fun h => hnotice ((mem_emit unique).mpr h))
    intro other hother
    rcases List.mem_cons.mp (h.ahead notice hout hother) with rfl | hmem
    · exact absurd hother hlibrary
    · exact hmem

theorem run (unique : (Keyed.keys index).Nodup) (h : Emitting index libraries out) :
    Emitting index [] (libraries.foldl (emit index) out) := by
  induction libraries generalizing out with
  | nil => exact h
  | cons library rest ih => exact ih (h.step unique)

end Emitting

theorem ordered_order (unique : (Keyed.keys index).Nodup) :
    (order index).Pairwise fun a b => (sectionFor index a).Precedes (sectionFor index b) := by
  have hstart : Emitting index index.libraries [] := by
    refine ⟨?_, .nil, nofun, fun notice _ library hlibrary => ?_⟩
    · exact (sortBy_increasing compare (nodup_distinct _)).imp compare_lt_iff_lt.mp
    · exact (Index.mem_libraries unique).mpr ⟨notice, hlibrary⟩
  exact (hstart.run unique).ordered

end Grouping

end LicenseNotice
