/-! # Stable sorting by a comparison

Lists here are short, and a sort by insertion computes by structural recursion alone. Items that
compare equal keep their order.
-/

namespace LicenseNotice

set_option autoImplicit false

variable {α : Type}

/-- Puts an item before the first one that does not come before it. -/
def insertOrdered (cmp : α → α → Ordering) (item : α) : List α → List α
  | [] => [item]
  | other :: rest =>
    if (cmp item other).isLE then item :: other :: rest
    else other :: insertOrdered cmp item rest

def sortBy (cmp : α → α → Ordering) : List α → List α
  | [] => []
  | item :: rest => insertOrdered cmp item (sortBy cmp rest)

theorem insertOrdered_perm (cmp : α → α → Ordering) (item : α) (items : List α) :
    (insertOrdered cmp item items).Perm (item :: items) := by
  fun_induction insertOrdered cmp item items with
  | case1 => exact .refl _
  | case2 => exact .refl _
  | case3 other rest _ ih => exact (ih.cons other).trans (.swap item other rest)

theorem sortBy_perm (cmp : α → α → Ordering) (items : List α) :
    (sortBy cmp items).Perm items := by
  induction items with
  | nil => exact .refl _
  | cons item rest ih => exact (insertOrdered_perm cmp item _).trans (ih.cons item)

theorem mem_sortBy {cmp : α → α → Ordering} {items : List α} {item : α} :
    item ∈ sortBy cmp items ↔ item ∈ items :=
  (sortBy_perm cmp items).mem_iff

theorem insertOrdered_pairwise {cmp : α → α → Ordering} [Std.TransCmp cmp] (item : α) {items : List α}
    (h : items.Pairwise fun a b => (cmp a b).isLE) :
    (insertOrdered cmp item items).Pairwise fun a b => (cmp a b).isLE := by
  fun_induction insertOrdered cmp item items with
  | case1 => exact List.pairwise_singleton _ item
  | case2 other rest hle =>
    refine List.pairwise_cons.mpr ⟨fun later hlater => ?_, h⟩
    rcases List.mem_cons.mp hlater with rfl | hlater
    · exact hle
    · exact Std.TransCmp.isLE_trans hle ((List.pairwise_cons.mp h).1 later hlater)
  | case3 other rest hnle ih =>
    obtain ⟨hother, hrest⟩ := List.pairwise_cons.mp h
    refine List.pairwise_cons.mpr ⟨fun later hlater => ?_, ih hrest⟩
    rcases List.mem_cons.mp ((insertOrdered_perm cmp item rest).mem_iff.mp hlater) with rfl | hlater
    · exact Ordering.isLE_iff_eq_lt_or_eq_eq.mpr (.inl (Std.OrientedCmp.lt_of_not_isLE hnle))
    · exact hother later hlater

theorem sortBy_pairwise (cmp : α → α → Ordering) [Std.TransCmp cmp] (items : List α) :
    (sortBy cmp items).Pairwise fun a b => (cmp a b).isLE := by
  induction items with
  | nil => exact .nil
  | cons item rest ih => exact insertOrdered_pairwise item ih

/-- Distinct items come out strictly increasing. -/
theorem sortBy_increasing (cmp : α → α → Ordering) [Std.TransCmp cmp] [Std.LawfulEqCmp cmp]
    {items : List α} (unique : items.Nodup) : (sortBy cmp items).Pairwise fun a b => cmp a b = .lt := by
  have hunique : (sortBy cmp items).Nodup := (sortBy_perm cmp items).nodup_iff.mpr unique
  refine ((sortBy_pairwise cmp items).and hunique).imp fun ⟨hle, hne⟩ => ?_
  rcases Ordering.isLE_iff_eq_lt_or_eq_eq.mp hle with hlt | heq
  · exact hlt
  · exact absurd (Std.LawfulEqCmp.eq_of_compare heq) hne

theorem eq_of_isLE_isLE {cmp : α → α → Ordering} [Std.TransCmp cmp] [Std.LawfulEqCmp cmp] {a b : α}
    (h : (cmp a b).isLE) (h' : (cmp b a).isLE) : a = b :=
  Std.LawfulEqCmp.eq_of_compare (Std.OrientedCmp.isLE_antisymm h h')

section Lawful

variable (cmp : α → α → Ordering) [Std.TransCmp cmp] [Std.LawfulEqCmp cmp]

/-- The order in which the items come does not show. -/
theorem sortBy_eq_of_perm {items others : List α} (h : items.Perm others) :
    sortBy cmp items = sortBy cmp others := by
  refine List.Perm.eq_of_pairwise (fun _ _ _ _ => eq_of_isLE_isLE) (sortBy_pairwise cmp items)
    (sortBy_pairwise cmp others) ?_
  exact (sortBy_perm cmp items).trans (h.trans (sortBy_perm cmp others).symm)

theorem head?_sortBy {items : List α} {item : α} (hitem : item ∈ items)
    (least : ∀ other ∈ items, (cmp item other).isLE) : (sortBy cmp items).head? = some item := by
  have hpairwise := sortBy_pairwise cmp items
  have hmem : item ∈ sortBy cmp items := mem_sortBy.mpr hitem
  have hleast : ∀ other ∈ sortBy cmp items, (cmp item other).isLE :=
    fun other hother => least other (mem_sortBy.mp hother)
  cases hsorted : sortBy cmp items with
  | nil =>
    rw [hsorted] at hmem
    cases hmem
  | cons first rest =>
    rw [hsorted] at hpairwise hmem hleast
    rcases List.mem_cons.mp hmem with rfl | hrest
    · rfl
    · have hle := (List.pairwise_cons.mp hpairwise).1 item hrest
      rw [List.head?_cons, eq_of_isLE_isLE hle (hleast first List.mem_cons_self)]

end Lawful

end LicenseNotice
