/-! # First occurrences

`distinctBy key` keeps, of the items with one key, the first, and leaves the order alone. The
items already met are passed along as their keys.
-/

namespace LicenseNotice

set_option autoImplicit false

variable {α κ : Type} [DecidableEq κ]

def distinctFrom (key : α → κ) (seen : List κ) : List α → List α
  | [] => []
  | item :: rest =>
    if key item ∈ seen then distinctFrom key seen rest
    else item :: distinctFrom key (key item :: seen) rest

def distinctBy (key : α → κ) (items : List α) : List α :=
  distinctFrom key [] items

def distinct (items : List κ) : List κ :=
  distinctBy id items

/-- Adds an item at the end unless it is there. -/
def addNew (item : κ) (items : List κ) : List κ :=
  if item ∈ items then items else items ++ [item]

theorem mem_of_mem_distinctFrom {key : α → κ} {seen : List κ} {items : List α} {item : α}
    (h : item ∈ distinctFrom key seen items) : item ∈ items ∧ key item ∉ seen := by
  induction items generalizing seen with
  | nil => simp [distinctFrom] at h
  | cons first rest ih =>
    by_cases hs : key first ∈ seen
    · rw [distinctFrom, if_pos hs] at h
      exact ⟨.tail _ (ih h).1, (ih h).2⟩
    · rw [distinctFrom, if_neg hs, List.mem_cons] at h
      rcases h with rfl | h
      · exact ⟨.head _, hs⟩
      · exact ⟨.tail _ (ih h).1, fun hm => (ih h).2 (.tail _ hm)⟩

/-- Every key that was not met before is met once. -/
theorem mem_map_distinctFrom {key : α → κ} {seen : List κ} {items : List α} {k : κ} :
    k ∈ (distinctFrom key seen items).map key ↔ k ∈ items.map key ∧ k ∉ seen := by
  induction items generalizing seen with
  | nil => simp [distinctFrom]
  | cons first rest ih =>
    by_cases hs : key first ∈ seen
    · rw [distinctFrom, if_pos hs, ih, List.map_cons, List.mem_cons]
      constructor
      · exact fun h => ⟨.inr h.1, h.2⟩
      · rintro ⟨rfl | h, hn⟩
        · exact absurd hs hn
        · exact ⟨h, hn⟩
    · rw [distinctFrom, if_neg hs, List.map_cons, List.mem_cons, ih, List.map_cons, List.mem_cons,
        List.mem_cons]
      by_cases hk : k = key first
      · subst hk
        simp [hs]
      · simp [hk]

/-- Every item is represented by a kept one with its key. -/
theorem exists_mem_distinctBy (key : α → κ) {items : List α} {item : α} (h : item ∈ items) :
    ∃ kept ∈ distinctBy key items, key kept = key item :=
  List.mem_map.mp (mem_map_distinctFrom.mpr ⟨List.mem_map_of_mem h, List.not_mem_nil⟩)

theorem nodup_map_distinctFrom (key : α → κ) (seen : List κ) (items : List α) :
    ((distinctFrom key seen items).map key).Nodup := by
  induction items generalizing seen with
  | nil => exact List.nodup_nil
  | cons first rest ih =>
    by_cases hs : key first ∈ seen
    · rw [distinctFrom, if_pos hs]
      exact ih seen
    · rw [distinctFrom, if_neg hs, List.map_cons, List.nodup_cons]
      exact ⟨fun h => (mem_map_distinctFrom.mp h).2 (.head _), ih _⟩

theorem mem_distinct {items : List κ} {item : κ} : item ∈ distinct items ↔ item ∈ items := by
  have h := @mem_map_distinctFrom κ κ _ id [] items item
  simpa [distinct, distinctBy] using h

theorem nodup_distinct (items : List κ) : (distinct items).Nodup := by
  have h := nodup_map_distinctFrom id [] items
  rwa [List.map_id] at h

theorem nodup_addNew {item : κ} {items : List κ} (h : items.Nodup) : (addNew item items).Nodup := by
  rw [addNew]
  split
  case isTrue => exact h
  case isFalse hn =>
    rw [List.nodup_append]
    refine ⟨h, List.pairwise_singleton _ item, ?_⟩
    rintro _ hm _ hs rfl
    exact hn (List.mem_singleton.mp hs ▸ hm)

theorem distinctFrom_concat (seen items : List κ) (item : κ) :
    distinctFrom id seen (items ++ [item]) =
      if item ∈ seen ∨ item ∈ items then distinctFrom id seen items
      else distinctFrom id seen items ++ [item] := by
  induction items generalizing seen with
  | nil => by_cases h : item ∈ seen <;> simp [distinctFrom, h]
  | cons first rest ih =>
    rw [List.cons_append, distinctFrom, distinctFrom, ih, ih]
    by_cases hs : first ∈ seen
    · have hm : item ∈ seen ∨ item ∈ first :: rest ↔ item ∈ seen ∨ item ∈ rest := by
        rw [List.mem_cons]
        exact ⟨fun h => h.elim .inl (·.elim (fun he => .inl (he ▸ hs)) .inr), fun h => h.imp_right .inr⟩
      simp only [id, if_pos hs, hm]
    · have hm : item ∈ first :: seen ∨ item ∈ rest ↔ item ∈ seen ∨ item ∈ first :: rest := by
        rw [List.mem_cons, List.mem_cons, or_assoc, or_left_comm]
      simp only [id, if_neg hs, hm]
      split <;> rfl

theorem distinct_concat (items : List κ) (item : κ) :
    distinct (items ++ [item]) = addNew item (distinct items) := by
  have h := distinctFrom_concat [] items item
  simp only [List.not_mem_nil, false_or] at h
  simp only [addNew, mem_distinct]
  exact h

theorem distinct_filter_concat (p : α → Prop) [DecidablePred p] (f : α → κ) (items : List α) (item : α) :
    distinct (((items ++ [item]).filter p).map f) =
      if p item then addNew (f item) (distinct ((items.filter p).map f))
      else distinct ((items.filter p).map f) := by
  by_cases h : p item
  · rw [if_pos h, ← distinct_concat]
    simp [h]
  · rw [if_neg h]
    simp [h]

/-- Items without repeats are kept as they are. -/
theorem distinctFrom_eq_self {seen items : List κ} (unique : items.Nodup)
    (fresh : ∀ item ∈ items, item ∉ seen) : distinctFrom id seen items = items := by
  induction items generalizing seen with
  | nil => rfl
  | cons first rest ih =>
    obtain ⟨hfirst, hrest⟩ := List.nodup_cons.mp unique
    have hnew : id first ∉ seen := fresh first List.mem_cons_self
    rw [distinctFrom, if_neg hnew, ih hrest]
    intro item hitem hseen
    rcases List.mem_cons.mp hseen with rfl | hseen
    · exact hfirst hitem
    · exact fresh item (List.mem_cons_of_mem _ hitem) hseen

theorem distinct_eq_self {items : List κ} (unique : items.Nodup) : distinct items = items :=
  distinctFrom_eq_self unique fun _ _ => List.not_mem_nil

/-! Lists that are put together -/

/-- Of the keys already met only their set matters. -/
theorem distinctFrom_congr (key : α → κ) {seen known : List κ} (h : ∀ k, k ∈ seen ↔ k ∈ known)
    (items : List α) : distinctFrom key seen items = distinctFrom key known items := by
  induction items generalizing seen known with
  | nil => rfl
  | cons item rest ih =>
    have hcons : ∀ k, k ∈ key item :: seen ↔ k ∈ key item :: known := fun k => by simp [h]
    simp only [distinctFrom, h, ih h, ih hcons]

theorem distinctFrom_eq_nil {key : α → κ} {seen : List κ} {items : List α}
    (h : ∀ item ∈ items, key item ∈ seen) : distinctFrom key seen items = [] := by
  induction items with
  | nil => rfl
  | cons item rest ih =>
    obtain ⟨hitem, hrest⟩ := List.forall_mem_cons.mp h
    rw [distinctFrom, if_pos hitem, ih hrest]

theorem distinctFrom_append (key : α → κ) (seen : List κ) (items more : List α) :
    distinctFrom key seen (items ++ more) =
      distinctFrom key seen items ++ distinctFrom key (items.map key ++ seen) more := by
  induction items generalizing seen with
  | nil => rfl
  | cons item rest ih =>
    rw [List.cons_append, distinctFrom, distinctFrom, ih, ih]
    by_cases hs : key item ∈ seen
    · rw [if_pos hs, if_pos hs]
      refine congrArg _ (distinctFrom_congr key (fun k => ?_) more)
      simp only [List.map_cons, List.cons_append, List.mem_cons, List.mem_append]
      exact ⟨.inr, fun h => h.elim (fun hk => .inr (hk ▸ hs)) id⟩
    · rw [if_neg hs, if_neg hs, List.cons_append]
      refine congrArg _ (congrArg _ (distinctFrom_congr key (fun k => ?_) more))
      simp only [List.map_cons, List.cons_append, List.mem_cons, List.mem_append]
      exact or_left_comm

/-- Items that an earlier pass with fewer known keys leaves out would be left out anyway. -/
theorem distinctFrom_distinctFrom (key : α → κ) {known seen : List κ} (h : known ⊆ seen)
    (items : List α) :
    distinctFrom key seen (distinctFrom key known items) = distinctFrom key seen items := by
  induction items generalizing known seen with
  | nil => rfl
  | cons item rest ih =>
    by_cases hk : key item ∈ known
    · rw [distinctFrom, if_pos hk, ih h, distinctFrom, if_pos (h hk)]
    · rw [distinctFrom, if_neg hk, distinctFrom, distinctFrom]
      by_cases hs : key item ∈ seen
      · rw [if_pos hs, if_pos hs, ih (List.cons_subset.mpr ⟨hs, h⟩)]
      · rw [if_neg hs, if_neg hs, ih (List.cons_subset_cons _ h)]

/-- Items may be made distinct part by part before the parts are put together. -/
theorem distinctBy_append (key : α → κ) (items more : List α) :
    distinctBy key (items ++ more) = distinctBy key (distinctBy key items ++ distinctBy key more) := by
  have hkeys : ∀ k, k ∈ (distinctBy key items).map key ++ [] ↔ k ∈ items.map key ++ [] := fun k => by
    simp [distinctBy, mem_map_distinctFrom]
  have hitems : distinctFrom key [] (distinctBy key items) = distinctFrom key [] items :=
    distinctFrom_distinctFrom key (List.nil_subset _) items
  have hmore : distinctFrom key (items.map key ++ []) (distinctBy key more) =
      distinctFrom key (items.map key ++ []) more :=
    distinctFrom_distinctFrom key (List.nil_subset _) more
  rw [distinctBy, distinctBy, distinctFrom_append, distinctFrom_append, hitems,
    distinctFrom_congr key hkeys, hmore]

/-- Items whose keys were met before them add nothing, wherever they stand. -/
theorem distinctBy_append_known (key : α → κ) {items known : List α}
    (h : ∀ item ∈ known, key item ∈ items.map key) (more : List α) :
    distinctBy key (items ++ (known ++ more)) = distinctBy key (items ++ more) := by
  have hnil : distinctFrom key (items.map key ++ []) known = [] :=
    distinctFrom_eq_nil fun item hitem => List.mem_append_left _ (h item hitem)
  have hkeys : ∀ k, k ∈ known.map key ++ (items.map key ++ []) ↔ k ∈ items.map key ++ [] := by
    intro k
    refine List.mem_append.trans (or_iff_right_of_imp fun hk => List.mem_append_left _ ?_)
    obtain ⟨item, hitem, rfl⟩ := List.mem_map.mp hk
    exact h item hitem
  rw [distinctBy, distinctBy, distinctFrom_append, distinctFrom_append key _ known, hnil,
    List.nil_append, distinctFrom_congr key hkeys, ← distinctFrom_append]

end LicenseNotice
