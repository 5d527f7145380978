import Mathlib.Data.List.Induction
import Mathlib.Data.List.Nodup
import LicenseNotice.Proofs.Resolution

/-! # Sets of resolutions by their history

Whatever was inserted, the list of a set and the triples it remembers agree. An insertion is taken
exactly if its triple is new, so the list holds what was first inserted of each triple, and putting
sets together again gives the set of everything that was inserted into them.
-/

namespace LicenseNotice

set_option autoImplicit false

section FirstOccurrences

variable {α κ : Type} [DecidableEq κ]

theorem distinctBy_concat (key : α → κ) (items : List α) (item : α) :
    distinctBy key (items ++ [item]) =
      if key item ∈ items.map key then distinctBy key items else distinctBy key items ++ [item] := by
  rw [distinctBy, distinctFrom_append, List.append_nil, distinctFrom]
  split
  case isTrue => exact List.append_nil _
  case isFalse => rfl

/-- An item is kept at a place exactly if no item before that place has its key. -/
theorem distinctBy_eq_filter (key : α → κ) (items : List α) :
    distinctBy key items =
      (items.zipIdx.filter fun entry => key entry.1 ∉ (items.take entry.2).map key).map (·.1) := by
  induction items using List.reverseRecOn with
  | nil => rfl
  | append_singleton items item ih =>
    have hfront :
        (items.zipIdx.filter fun entry => key entry.1 ∉ ((items ++ [item]).take entry.2).map key) =
          items.zipIdx.filter fun entry => key entry.1 ∉ (items.take entry.2).map key := by
      refine List.filter_congr fun entry hentry => ?_
      obtain ⟨-, hlt, -⟩ := List.mem_zipIdx hentry
      rw [List.take_append_of_le_length (by omega)]
    rw [distinctBy_concat, ih, List.zipIdx_append, List.filter_append, List.map_append, hfront]
    by_cases h : key item ∈ items.map key
    · simp [h]
    · simp [h]

end FirstOccurrences

theorem Category.mem_all (category : Category) : category ∈ all := by
  cases category <;> decide

namespace ResolutionSet

/-- The resolutions whose triples none before them has. -/
def firstOfTriples (rs : List Resolution) : List Resolution :=
  (rs.zipIdx.filter fun entry => entry.1.triple ∉ (rs.take entry.2).map (·.triple)).map (·.1)

variable {rs : List Resolution} {r : Resolution} {triple : Triple} {category : Category}

theorem mem_seen_ofList : triple ∈ (ofList rs).seen ↔ triple ∈ rs.map (·.triple) := by
  rw [seen_ofList, List.mem_reverse, mem_triples_ofList]

theorem ofList_concat (rs : List Resolution) (r : Resolution) :
    ofList (rs ++ [r]) = ((ofList rs).insert r).2 := by
  rw [ofList, insertAll, List.foldl_concat]
  rfl

theorem insert_of_known (h : r.triple ∈ rs.map (·.triple)) :
    (ofList rs).insert r = (false, ofList rs) := by
  rw [insert, if_pos (mem_seen_ofList.mpr h)]

theorem insert_of_new (h : r.triple ∉ rs.map (·.triple)) :
    (ofList rs).insert r = (true, ofList (rs ++ [r])) := by
  rw [ofList_concat, insert, if_neg (mt mem_seen_ofList.mp h)]

theorem toList_ofList_eq_firstOfTriples (rs : List Resolution) :
    (ofList rs).toList = firstOfTriples rs :=
  (toList_ofList rs).trans (distinctBy_eq_filter _ rs)

theorem mem_forCategory {set : ResolutionSet} :
    r ∈ set.forCategory category ↔ r ∈ set.toList ∧ r.category = category := by
  rw [forCategory, List.mem_filter, decide_eq_true_iff]

/-- Each resolution is listed under its category and under no other. -/
theorem flatMap_forCategory_perm (rs : List Resolution) :
    (Category.all.flatMap (ofList rs).forCategory).Perm (ofList rs).toList := by
  have hlist : (ofList rs).toList.Nodup := (nodup_triples rs).of_map
  have hparts : (Category.all.flatMap (ofList rs).forCategory).Nodup := by
    refine List.nodup_flatMap.mpr ⟨fun category _ => hlist.filter _, ?_⟩
    have hall : Category.all.Nodup := by decide
    refine hall.imp fun hne r h h' => hne ?_
    exact (mem_forCategory.mp h).2.symm.trans (mem_forCategory.mp h').2
  refine (List.perm_ext_iff_of_nodup hparts hlist).mpr fun r => ?_
  rw [List.mem_flatMap]
  constructor
  · rintro ⟨category, -, h⟩
    exact (mem_forCategory.mp h).1
  · exact fun h => ⟨r.category, Category.mem_all _, mem_forCategory.mpr ⟨h, rfl⟩⟩

theorem ofList_toList (rs : List Resolution) : ofList (ofList rs).toList = ofList rs := by
  apply ofList_eq_of_toList_eq
  rw [toList_ofList, toList_ofList]
  exact distinctFrom_distinctFrom _ (List.nil_subset _) rs

theorem ofList_append_toList (rs rs' : List Resolution) :
    ofList ((ofList rs).toList ++ (ofList rs').toList) = ofList (rs ++ rs') := by
  apply ofList_eq_of_toList_eq
  rw [toList_ofList, toList_ofList_append]

/-- After any insertions the triples remembered are those of the list, each once; one more insertion
is taken exactly if its triple was not inserted before, and otherwise changes nothing. The list holds
what was first inserted of each triple, the categories divide it, and sets made of lists of sets are
those made of all that was inserted. -/
theorem ofList_spec (rs : List Resolution) :
    (ofList rs).seen.Perm ((ofList rs).toList.map (·.triple)) ∧
    ((ofList rs).toList.map (·.triple)).Nodup ∧
    (∀ r, (((ofList rs).insert r).1 = true ↔ r.triple ∉ rs.map (·.triple)) ∧
      ((ofList rs).insert r).2 = ofList (rs ++ [r]) ∧
      (((ofList rs).insert r).1 = false → ((ofList rs).insert r).2 = ofList rs)) ∧
    (ofList rs).toList = firstOfTriples rs ∧
    (∀ category, ((ofList rs).forCategory category).Sublist (ofList rs).toList ∧
      ∀ r, r ∈ (ofList rs).forCategory category ↔ r ∈ (ofList rs).toList ∧ r.category = category) ∧
    (Category.all.flatMap (ofList rs).forCategory).Perm (ofList rs).toList ∧
    ofList (ofList rs).toList = ofList rs ∧
    ∀ rs', ofList ((ofList rs).toList ++ (ofList rs').toList) = ofList (rs ++ rs') := by
  refine ⟨seen_ofList rs ▸ List.reverse_perm _, nodup_triples rs, fun r => ?_,
    toList_ofList_eq_firstOfTriples rs,
    fun category => ⟨List.filter_sublist, fun _ => mem_forCategory⟩,
    flatMap_forCategory_perm rs, ofList_toList rs, ofList_append_toList rs⟩
  by_cases h : r.triple ∈ rs.map (·.triple)
  · rw [ofList_concat rs r, insert_of_known h]
    exact ⟨iff_of_false Bool.false_ne_true (not_not.mpr h), rfl, fun _ => rfl⟩
  · rw [ofList_concat rs r, insert_of_new h]
    exact ⟨iff_of_true rfl h, rfl, nofun⟩

-- Where a triple comes from does not count.
example (r : Resolution) (shipped origin : String) :
    (ofList [r]).insert { r with shipped, origin } = (false, ofList [r]) :=
  insert_of_known List.mem_cons_self

end ResolutionSet

end LicenseNotice
