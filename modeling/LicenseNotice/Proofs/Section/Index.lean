import Mathlib.Data.List.Induction
import Mathlib.Data.List.Nodup
import LicenseNotice.Section.Grouping

/-! # What the index of a list of resolutions holds

The index is built one resolution at a time. At every moment its notices, the libraries of each and
the installs of each of those are the distinct ones met so far, in the order they were first met.
-/

namespace LicenseNotice.Grouping.Index

set_option autoImplicit false

variable {index : Index} {notice : NoticeKey} {library path : String} {rs : List Resolution}

theorem ofResolutions_concat (rs : List Resolution) (r : Resolution) :
    ofResolutions (rs ++ [r]) = (ofResolutions rs).add r := by
  rw [ofResolutions, List.foldl_append]
  rfl

theorem blocksOf_add (index : Index) (r : Resolution) (notice : NoticeKey) :
    (index.add r).blocksOf notice =
      if r.notice = notice then
        Keyed.modify r.library [] (addNew r.installPath) (index.blocksOf notice)
      else index.blocksOf notice := by
  rw [blocksOf, add, Keyed.get?_modify]
  split
  case isTrue h =>
    subst h
    rfl
  case isFalse => rfl

theorem installsOf_add (index : Index) (r : Resolution) (notice : NoticeKey) (library : String) :
    (index.add r).installsOf notice library =
      if r.notice = notice ∧ r.library = library then
        addNew r.installPath (index.installsOf notice library)
      else index.installsOf notice library := by
  rw [installsOf, blocksOf_add]
  by_cases hn : r.notice = notice
  · rw [if_pos hn, Keyed.get?_modify]
    by_cases hl : r.library = library
    · subst hl
      rw [if_pos rfl, if_pos ⟨hn, rfl⟩]
      rfl
    · rw [if_neg hl, if_neg (fun h => hl h.2)]
      rfl
  · rw [if_neg hn, if_neg (fun h => hn h.1)]
    rfl

theorem keys_ofResolutions (rs : List Resolution) :
    Keyed.keys (ofResolutions rs) = distinct (rs.map (·.notice)) := by
  induction rs using List.reverseRecOn with
  | nil => rfl
  | append_singleton rs r ih =>
    rw [ofResolutions_concat, add, Keyed.keys_modify, ih, List.map_append, List.map_singleton,
      distinct_concat]

theorem keys_blocksOf (rs : List Resolution) (notice : NoticeKey) :
    Keyed.keys ((ofResolutions rs).blocksOf notice) =
      distinct ((rs.filter (·.notice = notice)).map (·.library)) := by
  induction rs using List.reverseRecOn with
  | nil => rfl
  | append_singleton rs r ih =>
    rw [ofResolutions_concat, blocksOf_add, distinct_filter_concat, ← ih]
    split
    case isTrue => exact Keyed.keys_modify _ _ _ _
    case isFalse => rfl

theorem installsOf_ofResolutions (rs : List Resolution) (notice : NoticeKey) (library : String) :
    (ofResolutions rs).installsOf notice library =
      distinct ((rs.filter fun r => r.notice = notice ∧ r.library = library).map (·.installPath)) := by
  induction rs using List.reverseRecOn with
  | nil => rfl
  | append_singleton rs r ih =>
    rw [ofResolutions_concat, installsOf_add, distinct_filter_concat, ih]

theorem nodup_keys (rs : List Resolution) : (Keyed.keys (ofResolutions rs)).Nodup :=
  keys_ofResolutions rs ▸ nodup_distinct _

theorem nodup_keys_blocksOf (rs : List Resolution) (notice : NoticeKey) :
    (Keyed.keys ((ofResolutions rs).blocksOf notice)).Nodup :=
  keys_blocksOf rs notice ▸ nodup_distinct _

theorem nodup_installsOf (rs : List Resolution) (notice : NoticeKey) (library : String) :
    ((ofResolutions rs).installsOf notice library).Nodup :=
  installsOf_ofResolutions rs notice library ▸ nodup_distinct _

theorem mem_keys_blocksOf : library ∈ Keyed.keys ((ofResolutions rs).blocksOf notice) ↔
    ∃ r ∈ rs, r.notice = notice ∧ r.library = library := by
  simp [keys_blocksOf, mem_distinct, and_assoc]

theorem mem_installsOf : path ∈ (ofResolutions rs).installsOf notice library ↔
    ∃ r ∈ rs, r.notice = notice ∧ r.library = library ∧ r.installPath = path := by
  simp [installsOf_ofResolutions, mem_distinct, and_assoc]

/-- A list that repeats no triple repeats no install of a library under a notice. -/
theorem installsOf_of_nodup (unique : (rs.map (·.triple)).Nodup) (notice : NoticeKey)
    (library : String) : (ofResolutions rs).installsOf notice library =
      (rs.filter fun r => r.notice = notice ∧ r.library = library).map (·.installPath) := by
  rw [installsOf_ofResolutions]
  apply distinct_eq_self
  refine (List.Nodup.filter _ (List.Nodup.of_map _ unique)).map_on ?_
  intro r hr s hs hpath
  obtain ⟨hr, hrn, hrl⟩ : r ∈ rs ∧ r.notice = notice ∧ r.library = library := by simpa using hr
  obtain ⟨hs, hsn, hsl⟩ : s ∈ rs ∧ s.notice = notice ∧ s.library = library := by simpa using hs
  refine List.inj_on_of_nodup_map unique hr hs ?_
  rw [Resolution.triple, Resolution.triple, hrn, hrl, hsn, hsl, hpath]

variable (unique : (Keyed.keys index).Nodup)

include unique

theorem mem_iff_blocksOf {blocks : List (String × List String)} : (notice, blocks) ∈ index ↔
    notice ∈ Keyed.keys index ∧ index.blocksOf notice = blocks := by
  constructor
  · intro h
    refine ⟨List.mem_map_of_mem h, ?_⟩
    rw [blocksOf, Keyed.get?_of_mem unique h]
    rfl
  · rintro ⟨hkey, rfl⟩
    obtain ⟨⟨_, blocks⟩, h, rfl⟩ := List.mem_map.mp hkey
    rw [blocksOf, Keyed.get?_of_mem unique h]
    exact h

omit unique in
theorem mem_keys_of_library (h : library ∈ Keyed.keys (index.blocksOf notice)) :
    notice ∈ Keyed.keys index := by
  rw [blocksOf] at h
  cases hget : Keyed.get? notice index with
  | none =>
    rw [hget] at h
    cases h
  | some blocks => exact Keyed.mem_keys_of_get? hget

theorem mem_libraries : library ∈ index.libraries ↔
    ∃ notice, library ∈ Keyed.keys (index.blocksOf notice) := by
  rw [libraries, sortNames, mem_sortBy, mem_distinct, List.mem_flatMap]
  constructor
  · rintro ⟨blocks, hblocks, hlibrary⟩
    obtain ⟨⟨notice, _⟩, hentry, rfl⟩ := List.mem_map.mp hblocks
    exact ⟨notice, ((mem_iff_blocksOf unique).mp hentry).2 ▸ hlibrary⟩
  · rintro ⟨notice, hlibrary⟩
    have hentry := (mem_iff_blocksOf unique).mpr ⟨mem_keys_of_library hlibrary, rfl⟩
    exact ⟨_, List.mem_map_of_mem hentry, hlibrary⟩

theorem waiting_eq (out : List NoticeKey) (library : String) : index.waiting out library =
    ((Keyed.keys index).filter fun notice =>
      notice ∉ out ∧ library ∈ Keyed.keys (index.blocksOf notice)).map fun notice =>
        (notice, (index.installsOf notice library).length) := by
  rw [waiting, Keyed.keys, List.filter_map, List.map_map, ← List.filterMap_eq_map, List.filterMap_filter]
  refine List.filterMap_congr ?_
  rintro ⟨notice, blocks⟩ hentry
  obtain ⟨_, rfl⟩ := (mem_iff_blocksOf unique).mp hentry
  simp only [Function.comp_apply, installsOf]
  cases hget : Keyed.get? library (index.blocksOf notice) with
  | none => simp [Keyed.get?_eq_none_iff.mp hget]
  | some installs => by_cases hout : notice ∈ out <;> simp [hout, Keyed.mem_keys_of_get? hget]

theorem map_fst_waiting (out : List NoticeKey) (library : String) :
    (index.waiting out library).map (·.1) = (Keyed.keys index).filter fun notice =>
      notice ∉ out ∧ library ∈ Keyed.keys (index.blocksOf notice) := by
  rw [waiting_eq unique, List.map_map]
  exact List.map_id _

end LicenseNotice.Grouping.Index
