import LicenseNotice.Distinct
import LicenseNotice.Resolution

/-! # What a set of resolutions holds

Whatever is inserted in whatever order, a set lists the first resolution of each triple.
-/

namespace LicenseNotice.ResolutionSet

set_option autoImplicit false

variable {set : ResolutionSet} {rs : List Resolution} {r : Resolution}

theorem insertAll_cons (set : ResolutionSet) (r : Resolution) (rs : List Resolution) :
    set.insertAll (r :: rs) = (set.insert r).2.insertAll rs := rfl

theorem toList_insertAll (set : ResolutionSet) (rs : List Resolution) :
    (set.insertAll rs).toList = set.toList ++ distinctFrom (·.triple) set.seen rs := by
  induction rs generalizing set with
  | nil => simp [insertAll, distinctFrom]
  | cons r rest ih =>
    rw [insertAll_cons, ih, insert, distinctFrom]
    by_cases h : r.triple ∈ set.seen
    · rw [if_pos h, if_pos h]
    · rw [if_neg h, if_neg h, List.append_assoc]
      rfl

theorem toList_ofList (rs : List Resolution) :
    (ofList rs).toList = distinctBy (·.triple) rs := by
  rw [ofList, toList_insertAll]
  rfl

theorem mem_of_mem_ofList (h : r ∈ (ofList rs).toList) : r ∈ rs :=
  (mem_of_mem_distinctFrom (toList_ofList rs ▸ h)).1

theorem exists_triple_of_mem (h : r ∈ rs) : ∃ kept ∈ (ofList rs).toList, kept.triple = r.triple := by
  rw [toList_ofList]
  exact exists_mem_distinctBy (·.triple) h

theorem mem_triples_ofList {triple : Triple} :
    triple ∈ (ofList rs).toList.map (·.triple) ↔ triple ∈ rs.map (·.triple) := by
  rw [toList_ofList, distinctBy, mem_map_distinctFrom]
  exact and_iff_left List.not_mem_nil

theorem nodup_triples (rs : List Resolution) : ((ofList rs).toList.map (·.triple)).Nodup := by
  rw [toList_ofList]
  exact nodup_map_distinctFrom _ _ _

theorem seen_insertAll (set : ResolutionSet) (rs : List Resolution)
    (h : set.seen = (set.toList.map (·.triple)).reverse) :
    (set.insertAll rs).seen = ((set.insertAll rs).toList.map (·.triple)).reverse := by
  induction rs generalizing set with
  | nil => exact h
  | cons r rest ih =>
    rw [insertAll_cons]
    refine ih _ ?_
    rw [insert]
    split
    case isTrue => exact h
    case isFalse => simp [h]

theorem seen_ofList (rs : List Resolution) :
    (ofList rs).seen = ((ofList rs).toList.map (·.triple)).reverse :=
  seen_insertAll empty rs rfl

/-- A set is its list. -/
theorem ofList_eq_of_toList_eq {rs rs' : List Resolution}
    (h : (ofList rs).toList = (ofList rs').toList) : ofList rs = ofList rs' := by
  have hseen : (ofList rs).seen = (ofList rs').seen := by rw [seen_ofList, seen_ofList, h]
  generalize ofList rs = set at h hseen
  generalize ofList rs' = set' at h hseen
  cases set
  cases set'
  cases h
  cases hseen
  rfl

/-- Resolutions whose triples were found before add nothing. -/
theorem ofList_append_known {known : List Resolution} (h : ∀ r ∈ known, r.triple ∈ rs.map (·.triple))
    (more : List Resolution) : ofList (rs ++ (known ++ more)) = ofList (rs ++ more) := by
  apply ofList_eq_of_toList_eq
  rw [toList_ofList, toList_ofList, distinctBy_append_known _ h]

theorem toList_ofList_append (rs rs' : List Resolution) : (ofList (rs ++ rs')).toList =
    distinctBy (·.triple) ((ofList rs).toList ++ (ofList rs').toList) := by
  rw [toList_ofList, toList_ofList, toList_ofList, distinctBy_append]

end LicenseNotice.ResolutionSet
