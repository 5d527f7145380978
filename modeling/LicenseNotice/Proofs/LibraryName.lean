import Mathlib.Data.List.Induction
import LicenseNotice.LibraryName
import LicenseNotice.Proofs.Text.Trimming

/-! # When a library name is blank

A library or a package that is given counts only if it is not blank. The two sources behind them are
taken as they are: the project of a license text may be a directory with a blank name, and an install
name may end in a blank component or have none at all.
-/

namespace LicenseNotice

set_option autoImplicit false

namespace Text

variable {cs front last : List Char}

theorem not_isSlash_of_not_mem (h : '/' ∉ cs) : ∀ c ∈ cs, (! isSlash c) = true := fun c hc => by
  rw [Bool.not_eq_true', isSlash, beq_eq_false_iff_ne]
  rintro rfl
  exact h hc

theorem afterLastSlash_of_not_mem (h : '/' ∉ cs) : afterLastSlash cs = cs :=
  List.rtakeWhile_eq_self_iff.mpr (not_isSlash_of_not_mem h)

theorem afterLastSlash_append (front : List Char) (h : '/' ∉ last) :
    afterLastSlash (front ++ '/' :: last) = last := by
  have hlast := not_isSlash_of_not_mem fun hc => h (List.mem_reverse.mp hc)
  rw [afterLastSlash, List.reverse_append, List.reverse_cons, List.append_assoc,
    List.singleton_append, List.takeWhile_append_of_pos hlast,
    List.takeWhile_cons_of_neg (by decide), List.append_nil, List.reverse_reverse]

theorem exists_last_slash (h : '/' ∈ cs) : ∃ front last, cs = front ++ '/' :: last ∧ '/' ∉ last := by
  obtain ⟨last, front, hreverse, hlast⟩ :=
    List.eq_append_cons_of_mem (List.mem_reverse.mpr h)
  refine ⟨front.reverse, last.reverse, ?_, by simpa using hlast⟩
  rw [← List.reverse_reverse cs, hreverse, List.reverse_append, List.reverse_cons,
    List.append_assoc, List.singleton_append]

theorem getLast?_splitOn (cs : List Char) :
    (cs.splitOn '/').getLast? = some (afterLastSlash cs) := by
  by_cases h : '/' ∈ cs
  · obtain ⟨front, last, rfl, hlast⟩ := exists_last_slash h
    rw [List.splitOn_append_cons_self, List.splitOn_eq_singleton hlast, List.getLast?_concat,
      afterLastSlash_append front hlast]
  · rw [List.splitOn_eq_singleton h, List.getLast?_singleton, afterLastSlash_of_not_mem h]

theorem components_concat_slash (cs : List Char) : components (cs ++ ['/']) = components cs := by
  rw [components, List.splitOn_append_cons_self, List.filter_append, List.splitOn_nil]
  exact List.append_nil _

theorem getLast?_components (h : afterLastSlash cs ≠ []) :
    (components cs).getLast? = some (afterLastSlash cs) := by
  obtain ⟨dirs, hsplit⟩ := List.getLast?_eq_some_iff.mp (getLast?_splitOn cs)
  have hkept : [afterLastSlash cs].filter (! ·.isEmpty) = [afterLastSlash cs] := by simp [h]
  rw [components, hsplit, List.filter_append, hkept, List.getLast?_concat]

/-- What stands behind the last slash, slashes at the end aside, is the last component. -/
theorem afterLastSlash_dropEnd (cs : List Char) :
    afterLastSlash (dropEnd isSlash cs) = ((components cs).getLast?).getD [] := by
  -- From the end: a slash there does not count, any other character is in the last component.
  induction cs using List.reverseRecOn with
  | nil => rfl
  | append_singleton cs c ih =>
    by_cases hc : isSlash c
    · have hdrop : dropEnd isSlash (cs ++ [c]) = dropEnd isSlash cs :=
        List.rdropWhile_concat_pos _ _ _ hc
      rw [hdrop, ih, beq_iff_eq.mp hc, components_concat_slash]
    · have hdrop : dropEnd isSlash (cs ++ [c]) = cs ++ [c] := List.rdropWhile_concat_neg _ _ _ hc
      have hlast : afterLastSlash (cs ++ [c]) = afterLastSlash cs ++ [c] :=
        List.rtakeWhile_concat_pos _ _ _ (by simpa using hc)
      rw [hdrop, getLast?_components (by simp [hlast]), Option.getD_some]

end Text

namespace LibraryName

/-- No source of a library name gives one: what is given by name is blank, and so is the directory
the license text is in or, without one, the last component of the install name. -/
structure Nameless (origin : Target) (condition : Condition) : Prop where
  library : ∀ name ∈ condition.library, Text.trim name = ""
  package : ∀ name ∈ origin.package, Text.trim name = ""
  project : ∀ name ∈ condition.text.bind projectOfText?, Text.trim name = ""
  component : condition.text.bind projectOfText? = none →
    ∀ last ∈ (Text.components origin.installName.toList).getLast?, ∀ c ∈ last, Text.isBlankChar c

variable {origin : Target} {condition : Condition}

theorem toList_fileName (installName : String) : (fileName installName).toList =
    ((Text.components installName.toList).getLast?).getD [] := by
  rw [fileName, String.toList_ofList, Text.afterLastSlash_dropEnd]

theorem trim_fileName_eq_empty_iff {installName : String} : Text.trim (fileName installName) = "" ↔
    ∀ last ∈ (Text.components installName.toList).getLast?, ∀ c ∈ last, Text.isBlankChar c := by
  rw [← Text.isBlank_iff_trim_eq, Text.isBlank, toList_fileName, List.all_eq_true]
  cases (Text.components installName.toList).getLast? <;> simp

theorem bind_trimmed?_eq_none_iff {name? : Option String} :
    name?.bind Text.trimmed? = none ↔ ∀ name ∈ name?, Text.trim name = "" := by
  cases name? with
  | none => simp
  | some name => simp [Text.trimmed?_eq_none_iff]

theorem trim_ne_of_bind_trimmed? {name? : Option String} {name : String}
    (h : name?.bind Text.trimmed? = some name) : Text.trim name ≠ "" := by
  obtain ⟨_, -, htrimmed⟩ := Option.bind_eq_some_iff.mp h
  exact Text.trim_trimmed?_ne htrimmed

/-- The name reported for a condition is blank exactly if no source gives one. -/
theorem trim_libraryName_eq_empty_iff :
    Text.trim (libraryName origin condition) = "" ↔ Nameless origin condition := by
  rw [libraryName]
  cases hlibrary : condition.library.bind Text.trimmed? with
  | some name =>
    refine iff_of_false (trim_ne_of_bind_trimmed? hlibrary) fun h => ?_
    rw [bind_trimmed?_eq_none_iff.mpr h.library] at hlibrary
    cases hlibrary
  | none =>
    have hlibraryBlank := bind_trimmed?_eq_none_iff.mp hlibrary
    cases hpackage : origin.package.bind Text.trimmed? with
    | some name =>
      refine iff_of_false (trim_ne_of_bind_trimmed? hpackage) fun h => ?_
      rw [bind_trimmed?_eq_none_iff.mpr h.package] at hpackage
      cases hpackage
    | none =>
      have hpackageBlank := bind_trimmed?_eq_none_iff.mp hpackage
      cases hproject : condition.text.bind projectOfText? with
      | some project =>
        refine ⟨fun h => ⟨hlibraryBlank, hpackageBlank, ?_, ?_⟩, fun h => h.project project hproject⟩
        · rintro name hname
          rw [hproject] at hname
          exact Option.some.inj hname ▸ h
        · rw [hproject]
          exact nofun
      | none =>
        refine ⟨fun h => ⟨hlibraryBlank, hpackageBlank, ?_, ?_⟩, fun h => ?_⟩
        · rw [hproject]
          exact nofun
        · exact fun _ => trim_fileName_eq_empty_iff.mp h
        · exact trim_fileName_eq_empty_iff.mpr (h.component hproject)

/-- An install name with something in it is a blank name only where a slash is in it. -/
theorem Nameless.slash_mem (h : Nameless origin condition)
    (hname : Text.trim origin.installName ≠ "")
    (hproject : condition.text.bind projectOfText? = none) : '/' ∈ origin.installName.toList := by
  by_contra hslash
  have hne : origin.installName.toList ≠ [] := fun hnil => hname (by
    rw [← Text.isBlank_iff_trim_eq, Text.isBlank, hnil]
    rfl)
  have hcomponents : Text.components origin.installName.toList = [origin.installName.toList] := by
    rw [Text.components, List.splitOn_eq_singleton hslash]
    simp [hne]
  have hblank := h.component hproject origin.installName.toList (by rw [hcomponents]; rfl)
  rw [Ne, ← Text.isBlank_iff_trim_eq, Text.isBlank, List.all_eq_true] at hname
  exact hname hblank

end LibraryName

end LicenseNotice
