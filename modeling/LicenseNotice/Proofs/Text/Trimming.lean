import Mathlib.Data.List.DropRight
import Mathlib.Data.List.TakeWhile
import LicenseNotice.Text.Slash

/-! # What trimming leaves

Trimming takes a class of characters away at both ends. What is left neither begins nor ends with
one of them, and nothing is left exactly of the texts that are made of that class alone.
-/

namespace LicenseNotice.Text

set_option autoImplicit false

variable {p : Char → Bool} {cs rest : List Char} {c : Char} {s : String}

theorem dropEnd_eq_nil_iff : dropEnd p cs = [] ↔ ∀ c ∈ cs, p c := List.rdropWhile_eq_nil_iff

theorem trimBy_eq_nil_iff : trimBy p cs = [] ↔ ∀ c ∈ cs, p c := by
  rw [trimBy, dropEnd_eq_nil_iff]
  constructor
  · intro h c hc
    rw [← List.takeWhile_append_dropWhile (p := p) (l := cs)] at hc
    exact (List.mem_append.mp hc).elim List.mem_takeWhile_imp (h c)
  · exact fun h c hc => h c ((List.dropWhile_sublist p).subset hc)

theorem not_of_head?_dropWhile (h : (cs.dropWhile p).head? = some c) : ¬ p c := by
  have hnot := List.head?_dropWhile_not p cs
  rw [h] at hnot
  exact Bool.eq_false_iff.mp hnot

theorem dropWhile_append_of_boundary {front rest : List Char} (hfront : ∀ c ∈ front, p c)
    (hrest : ∀ c, rest.head? = some c → ¬ p c) : (front ++ rest).dropWhile p = rest := by
  rw [List.dropWhile_append_of_pos hfront]
  cases rest with
  | nil => rfl
  | cons c cs => exact List.dropWhile_cons_of_neg (hrest c rfl)

theorem dropEnd_prefix (p : Char → Bool) (cs : List Char) : dropEnd p cs <+: cs :=
  List.rdropWhile_prefix p cs

theorem not_of_head?_trimBy (h : (trimBy p cs).head? = some c) : ¬ p c := by
  obtain ⟨back, hback⟩ := dropEnd_prefix p (cs.dropWhile p)
  have hhead : (cs.dropWhile p).head? = some c := by
    rw [← hback, List.head?_append]
    exact Option.or_eq_some_iff.mpr (.inl h)
  exact not_of_head?_dropWhile hhead

theorem not_of_getLast?_trimBy (h : (trimBy p cs).getLast? = some c) : ¬ p c := by
  rw [trimBy, dropEnd, List.getLast?_reverse] at h
  exact not_of_head?_dropWhile h

/-- Only characters of the class are taken away, and only at the ends. -/
theorem exists_around_trimBy (p : Char → Bool) (cs : List Char) : ∃ front back,
    cs = front ++ trimBy p cs ++ back ∧ (∀ c ∈ front, p c) ∧ ∀ c ∈ back, p c := by
  refine ⟨cs.takeWhile p, (cs.dropWhile p).rtakeWhile p, ?_, fun c => List.mem_takeWhile_imp,
    fun c => List.mem_rtakeWhile_imp⟩
  have hback : trimBy p cs ++ (cs.dropWhile p).rtakeWhile p = cs.dropWhile p :=
    List.rdropWhile_append_rtakeWhile
  rw [List.append_assoc, hback, List.takeWhile_append_dropWhile]

theorem eq_replicate_of_isSlash (h : ∀ c ∈ cs, isSlash c) : cs = List.replicate cs.length '/' :=
  List.eq_replicate_of_mem fun c hc => beq_iff_eq.mp (h c hc)

theorem isSlash_of_mem_replicate {count : Nat} : ∀ c ∈ List.replicate count '/', isSlash c :=
  fun _ hc => beq_iff_eq.mpr (List.eq_of_mem_replicate hc)

theorem dropWhile_isSlash_eq_iff (hrest : rest.head? ≠ some '/') :
    cs.dropWhile isSlash = rest ↔ ∃ count, cs = List.replicate count '/' ++ rest := by
  constructor
  · rintro rfl
    refine ⟨(cs.takeWhile isSlash).length, ?_⟩
    rw [← eq_replicate_of_isSlash fun c => List.mem_takeWhile_imp, List.takeWhile_append_dropWhile]
  · rintro ⟨count, rfl⟩
    refine dropWhile_append_of_boundary isSlash_of_mem_replicate fun c hc hslash => hrest ?_
    rw [hc, beq_iff_eq.mp hslash]

theorem head?_trimSlashes_ne (cs : List Char) : (trimSlashes cs).head? ≠ some '/' :=
  fun h => not_of_head?_trimBy h rfl

theorem getLast?_trimSlashes_ne (cs : List Char) : (trimSlashes cs).getLast? ≠ some '/' :=
  fun h => not_of_getLast?_trimBy h rfl

theorem isBlank_iff_trim_eq : isBlank s ↔ trim s = "" := by
  rw [trim, ← String.ofList_nil, String.ofList_inj, trimBy_eq_nil_iff, isBlank, List.all_eq_true]

theorem isBlank_trim (s : String) : isBlank (trim s) ↔ isBlank s := by
  obtain ⟨front, back, haround, hfront, hback⟩ := exists_around_trimBy isBlankChar s.toList
  have hall : isBlank s = (front ++ trimBy isBlankChar s.toList ++ back).all isBlankChar :=
    congrArg (·.all isBlankChar) haround
  rw [hall, List.all_append, List.all_append, List.all_eq_true.mpr hfront,
    List.all_eq_true.mpr hback, Bool.true_and, Bool.and_true, isBlank, trim, String.toList_ofList]

/-- Trimming leaves something of a text exactly if it is not blank, and that is not blank either. -/
theorem trim_trimmed?_ne {t : String} (h : trimmed? s = some t) : trim t ≠ "" := by
  rw [trimmed?] at h
  split at h
  case isTrue => cases h
  case isFalse hblank =>
    obtain rfl := Option.some.inj h
    rwa [Ne, ← isBlank_iff_trim_eq, isBlank_trim]

theorem trimmed?_eq_none_iff : trimmed? s = none ↔ trim s = "" := by
  rw [trimmed?, ← isBlank_iff_trim_eq]
  split <;> simp [*]

end LicenseNotice.Text
