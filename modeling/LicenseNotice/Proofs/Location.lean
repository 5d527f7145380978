import Mathlib.Data.List.Basic
import LicenseNotice.Location

/-! # Where joined paths lead

A path that does not begin with a slash is joined below its base: the base stands in front as it is
spelled, and the components are those of the base and then those of the path. A path that begins
with a slash is not joined at all.
-/

namespace LicenseNotice.Location

set_option autoImplicit false

variable {base path : String}

/-- `joined` is the base with what `path` names behind it. -/
structure LiesBelow (base path joined : String) : Prop where
  begins : base.toList <+: joined.toList
  absolute : isAbsolute joined = isAbsolute base
  components : components joined = components base ++ components path

theorem join_of_isAbsolute (h : isAbsolute path) (base : String) : join base path = path := by
  rw [join, if_pos (.inl h)]

theorem join_eq (hpath : ¬ isAbsolute path) (hbase : base ≠ "") :
    join base path = if base.toList.getLast? = some '/' then base ++ path else base ++ "/" ++ path := by
  rw [join, if_neg]
  simpa [hpath] using hbase

theorem isAbsolute_append (hbase : base ≠ "") (more : String) :
    isAbsolute (base ++ more) = isAbsolute base := by
  rw [isAbsolute, isAbsolute, String.toList_append, List.head?_append_of_ne_nil]
  simpa using hbase

theorem components_append_slash (base path : String) :
    components (base ++ "/" ++ path) = components base ++ components path := by
  have hsplit : (base ++ "/" ++ path).toList = base.toList ++ '/' :: path.toList := by simp
  rw [components, pieces, hsplit, List.splitOn_append_cons_self, List.map_append,
    List.filter_append]
  rfl

/-- A slash at the end of a path names nothing. -/
theorem components_append (h : base.toList.getLast? = some '/') (path : String) :
    components (base ++ path) = components base ++ components path := by
  obtain ⟨front, hfront⟩ := List.getLast?_eq_some_iff.mp h
  have hbase : base = String.ofList front ++ "/" := by
    rw [← String.toList_inj, hfront]
    simp
  have hempty : components "" = [] := by decide
  have hslash := components_append_slash (String.ofList front) ""
  rw [hempty, List.append_nil, String.append_empty] at hslash
  rw [hbase, components_append_slash, hslash]

theorem liesBelow_join (h : ¬ isAbsolute path) (base : String) :
    LiesBelow base path (join base path) := by
  by_cases hbase : base = ""
  · have hjoin : join base path = path := if_pos (.inr (by simp [hbase]))
    rw [hjoin, hbase]
    exact ⟨List.nil_prefix, Bool.eq_false_iff.mpr h, rfl⟩
  · rw [join_eq h hbase]
    split
    case isTrue hslash =>
      exact ⟨by simp, isAbsolute_append hbase path, components_append hslash path⟩
    case isFalse =>
      refine ⟨by simp, ?_, components_append_slash base path⟩
      rw [String.append_assoc, isAbsolute_append hbase]

end LicenseNotice.Location
