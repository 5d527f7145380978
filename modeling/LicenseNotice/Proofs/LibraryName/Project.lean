import LicenseNotice.Proofs.LibraryName

/-! # The project of a license text

A license text belongs to a project if it is a file in a directory below one of the source trees, and
the directory is the project. Slashes may be repeated wherever there is one, and may stand in front.
No text lies below two of the trees, so it does not matter which of them is tried first.
-/

namespace LicenseNotice

set_option autoImplicit false

namespace Text

variable {cs front last core : List Char}

theorem beforeLastSlash?_of_not_mem (h : '/' ∉ cs) : beforeLastSlash? cs = none := by
  have hall := not_isSlash_of_not_mem fun hc => h (List.mem_reverse.mp hc)
  rw [beforeLastSlash?, List.dropWhile_eq_nil_iff.mpr hall]

theorem beforeLastSlash?_append (front : List Char) (h : '/' ∉ last) :
    beforeLastSlash? (front ++ '/' :: last) = some front := by
  have hlast := not_isSlash_of_not_mem fun hc => h (List.mem_reverse.mp hc)
  rw [beforeLastSlash?, List.reverse_append, List.reverse_cons, List.append_assoc,
    List.singleton_append, List.dropWhile_append_of_pos hlast,
    List.dropWhile_cons_of_neg (by decide)]
  exact congrArg some (List.reverse_reverse front)

theorem beforeLastSlash?_eq_some_iff : beforeLastSlash? cs = some front ↔
    ∃ last, cs = front ++ '/' :: last ∧ '/' ∉ last := by
  constructor
  · intro h
    by_cases hslash : '/' ∈ cs
    · obtain ⟨before, last, rfl, hlast⟩ := exists_last_slash hslash
      rw [beforeLastSlash?_append before hlast] at h
      cases h
      exact ⟨last, rfl, hlast⟩
    · rw [beforeLastSlash?_of_not_mem hslash] at h
      cases h
  · rintro ⟨last, rfl, hlast⟩
    exact beforeLastSlash?_append front hlast

theorem exists_around_trimSlashes (cs : List Char) : ∃ before behind,
    cs = List.replicate before '/' ++ trimSlashes cs ++ List.replicate behind '/' := by
  obtain ⟨front, back, haround, hfront, hback⟩ := exists_around_trimBy isSlash cs
  refine ⟨front.length, back.length, ?_⟩
  rw [← eq_replicate_of_isSlash hfront, ← eq_replicate_of_isSlash hback]
  exact haround

theorem trimSlashes_around (hne : core ≠ []) (hhead : core.head? ≠ some '/')
    (hlast : core.getLast? ≠ some '/') (before behind : Nat) :
    trimSlashes (List.replicate before '/' ++ core ++ List.replicate behind '/') = core := by
  have hfront : (List.replicate before '/' ++ core ++ List.replicate behind '/').dropWhile isSlash =
      core ++ List.replicate behind '/' := by
    rw [dropWhile_isSlash_eq_iff (by rwa [List.head?_append_of_ne_nil core hne])]
    exact ⟨before, List.append_assoc _ _ _⟩
  have hback : (core ++ List.replicate behind '/').reverse.dropWhile isSlash = core.reverse := by
    rw [dropWhile_isSlash_eq_iff (by rwa [List.head?_reverse])]
    exact ⟨behind, by rw [List.reverse_append, List.reverse_replicate]⟩
  rw [trimSlashes, trimBy, hfront, dropEnd, hback, List.reverse_reverse]

end Text

namespace LibraryName

open Text (beforeLastSlash? trimSlashes)

/-- `text` names a file in the directory `project` below a source tree. -/
def InProject (project text : String) : Prop :=
  ∃ tree ∈ sourceTrees, ∃ before between behind file,
    text.toList = List.replicate before '/' ++ tree.toList ++ List.replicate between '/' ++
      project.toList ++ List.replicate (behind + 1) '/' ++ file ∧
    '/' ∉ file ∧ project ≠ "" ∧ project.toList.head? ≠ some '/' ∧
    project.toList.getLast? ≠ some '/'

variable {trees : List String} {tree other text project : String}
  {path below beyond dir : List Char}

theorem head?_append_sourceTree (h : tree ∈ sourceTrees) (below : List Char) :
    (tree.toList ++ below).head? ≠ some '/' := by
  have hnames : ∀ tree ∈ sourceTrees, tree.toList ≠ [] ∧ tree.toList.head? ≠ some '/' := by decide
  obtain ⟨hne, hhead⟩ := hnames tree h
  rwa [List.head?_append_of_ne_nil _ hne]

/-- The trees differ in their first letters. -/
theorem sourceTree_eq_of_append_eq (h : tree ∈ sourceTrees) (h' : other ∈ sourceTrees)
    (heq : tree.toList ++ below = other.toList ++ beyond) : tree = other := by
  have hletters : ∀ tree ∈ sourceTrees, tree.toList ≠ [] ∧ ∀ other ∈ sourceTrees,
      tree.toList.head? = other.toList.head? → tree = other := by decide
  obtain ⟨hne, hdiffer⟩ := hletters tree h
  refine hdiffer other h' ?_
  rw [← List.head?_append_of_ne_nil tree.toList hne, heq,
    List.head?_append_of_ne_nil other.toList (hletters other h').1]

theorem findSome?_sourceTree_eq_some_iff (htrees : trees.Perm sourceTrees) :
    trees.findSome? (fun tree => List.isPrefixOf? tree.toList path) = some below ↔
      ∃ tree ∈ sourceTrees, path = tree.toList ++ below := by
  have hsound : ∀ found, trees.findSome? (fun tree => List.isPrefixOf? tree.toList path) = some found →
      ∃ tree ∈ sourceTrees, path = tree.toList ++ found := by
    intro found h
    obtain ⟨tree, htree, hfound⟩ := List.exists_of_findSome?_eq_some h
    exact ⟨tree, htrees.mem_iff.mp htree, (List.isPrefixOf?_eq_some_iff_append_eq.mp hfound).symm⟩
  refine ⟨hsound below, ?_⟩
  rintro ⟨tree, htree, rfl⟩
  have hfinds : (trees.findSome? fun other =>
      List.isPrefixOf? other.toList (tree.toList ++ below)).isSome := by
    rw [List.findSome?_isSome_iff]
    refine ⟨tree, htrees.mem_iff.mpr htree, ?_⟩
    rw [List.isPrefixOf?_eq_some_iff_append_eq.mpr rfl]
    rfl
  obtain ⟨found, hfound⟩ := Option.isSome_iff_exists.mp hfinds
  obtain ⟨other, hother, heq⟩ := hsound found hfound
  obtain rfl := sourceTree_eq_of_append_eq htree hother heq
  rw [hfound, List.append_cancel_left heq]

theorem projectAmong?_eq_some : projectAmong? trees text = some project ↔ ∃ below dir,
    trees.findSome? (fun tree => List.isPrefixOf? tree.toList (text.toList.dropWhile Text.isSlash)) =
      some below ∧
    beforeLastSlash? below = some dir ∧ trimSlashes dir ≠ [] ∧ trimSlashes dir = project.toList := by
  rw [projectAmong?]
  simp only [Option.bind_eq_bind, Option.bind_eq_some_iff, List.isEmpty_iff]
  refine exists_congr fun below => ?_
  rw [← exists_and_left]
  refine exists_congr fun dir => and_congr_right fun _ => and_congr_right fun _ => ?_
  split
  case isTrue hnil => simp [hnil]
  case isFalse hne =>
    rw [Option.some.injEq, and_iff_right hne, ← String.ofList_inj, String.ofList_toList]

theorem projectAmong?_eq_some_iff (htrees : trees.Perm sourceTrees) :
    projectAmong? trees text = some project ↔ InProject project text := by
  rw [projectAmong?_eq_some]
  constructor
  · rintro ⟨below, dir, hbelow, hdir, hne, hproject⟩
    obtain ⟨tree, htree, hpath⟩ := (findSome?_sourceTree_eq_some_iff htrees).mp hbelow
    obtain ⟨file, rfl, hfile⟩ := Text.beforeLastSlash?_eq_some_iff.mp hdir
    obtain ⟨before, htext⟩ :=
      (Text.dropWhile_isSlash_eq_iff (head?_append_sourceTree htree _)).mp hpath
    obtain ⟨between, behind, haround⟩ := Text.exists_around_trimSlashes dir
    refine ⟨tree, htree, before, between, behind, file, ?_, hfile, ?_, ?_, ?_⟩
    · rw [htext, haround, hproject, List.replicate_succ']
      simp only [List.append_assoc, List.singleton_append]
    · rintro rfl
      exact hne hproject
    · exact hproject ▸ Text.head?_trimSlashes_ne dir
    · exact hproject ▸ Text.getLast?_trimSlashes_ne dir
  · rintro ⟨tree, htree, before, between, behind, file, htext, hfile, hne, hhead, hlast⟩
    have hnil : project.toList ≠ [] := fun hnil => hne (String.toList_eq_nil_iff.mp hnil)
    have htrim := Text.trimSlashes_around hnil hhead hlast between behind
    refine ⟨_, List.replicate between '/' ++ project.toList ++ List.replicate behind '/',
      (findSome?_sourceTree_eq_some_iff htrees).mpr ⟨tree, htree, ?_⟩,
      Text.beforeLastSlash?_append _ hfile, fun h => hnil (htrim.symm.trans h), htrim⟩
    rw [Text.dropWhile_isSlash_eq_iff (head?_append_sourceTree htree _)]
    refine ⟨before, ?_⟩
    rw [htext, List.replicate_succ']
    simp only [List.append_assoc, List.singleton_append]

/-- A text has a project exactly if it is laid out as a file in the project's directory below a source
tree. That leaves no choice of the project, and no order of the trees gives another. -/
theorem projectOfText?_spec (text : String) :
    (∀ project, projectOfText? text = some project ↔ InProject project text) ∧
    (∀ project other, InProject project text → InProject other text → project = other) ∧
    ∀ trees : List String, trees.Perm sourceTrees → projectAmong? trees text = projectOfText? text := by
  have hiff : ∀ project, projectOfText? text = some project ↔ InProject project text :=
    fun project => projectAmong?_eq_some_iff (List.Perm.refl sourceTrees)
  refine ⟨hiff, fun project other h h' => ?_, fun trees htrees => ?_⟩
  · exact Option.some.inj (((hiff project).mpr h).symm.trans ((hiff other).mpr h'))
  · ext project
    exact (projectAmong?_eq_some_iff htrees).trans (hiff project).symm

-- A directory may be named like a tree, and a text may end in a slash.
example :
    projectOfText? "//vendor///device//acme///libbar//LICENSE" = some "device//acme///libbar" ∧
    projectOfText? "external/libfoo/" = some "libfoo" ∧ projectOfText? "external///NOTICE" = none := by
  decide

end LibraryName

end LicenseNotice
