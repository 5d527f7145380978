import Mathlib.Data.List.Chain
import LicenseNotice.Proofs.InstallPath

/-! # The form of an install path

An install path neither begins nor ends with a slash, whatever its segments are. Two slashes in a
row come from inside a segment alone: where segments meet there is one slash. Up to such empty
pieces a path is read back by splitting it at its slashes, so two paths are the same text exactly if
they are made of the same components.
-/

namespace LicenseNotice.InstallPath

set_option autoImplicit false

/-- Everything that is joined into the install path of a chain. -/
def chainSegments (outputRoot : String) (chain : Chain) : List String :=
  rootSegments outputRoot chain.root ++ chain.names

/-- What the segments of a chain hold between slashes, those around each segment aside. -/
def components (outputRoot : String) (chain : Chain) : List (List Char) :=
  pieces (chainSegments outputRoot chain)

variable {segments : List String} {texts : List (List Char)} {cs : List Char}

theorem ofChain_eq_join (outputRoot : String) (chain : Chain) :
    ofChain outputRoot chain = join (chainSegments outputRoot chain) := rfl

/-- A text with something in it and no slash at either end. -/
structure IsPart (cs : List Char) : Prop where
  ne_nil : cs ≠ []
  begins : cs.head? ≠ some '/'
  ends : cs.getLast? ≠ some '/'

theorem mem_parts {part : List Char} : part ∈ parts segments ↔
    part ≠ [] ∧ ∃ segment ∈ segments, Text.trimSlashes segment.toList = part := by
  simp [parts, and_comm]

theorem isPart_of_mem_parts {part : List Char} (h : part ∈ parts segments) : IsPart part := by
  obtain ⟨hne, segment, -, rfl⟩ := mem_parts.mp h
  exact ⟨hne, Text.head?_trimSlashes_ne _, Text.getLast?_trimSlashes_ne _⟩

/-! Parts joined by single slashes -/

theorem begins_intercalate (h : ∀ text ∈ texts, IsPart text) :
    (['/'].intercalate texts).head? ≠ some '/' := by
  cases texts with
  | nil => simp
  | cons text rest =>
    have htext := h text List.mem_cons_self
    cases rest with
    | nil => simpa using htext.begins
    | cons next rest =>
      rw [List.intercalate_cons_of_ne_nil (by simp), List.append_assoc,
        List.head?_append_of_ne_nil _ htext.ne_nil]
      exact htext.begins

theorem ends_intercalate (h : ∀ text ∈ texts, IsPart text) :
    (['/'].intercalate texts).getLast? ≠ some '/' := by
  induction texts with
  | nil => simp
  | cons text rest ih =>
    obtain ⟨htext, hrest⟩ := List.forall_mem_cons.mp h
    cases rest with
    | nil => simpa using htext.ends
    | cons next rest =>
      have hne : ['/'].intercalate (next :: rest) ≠ [] := by
        cases rest with
        | nil => simpa using (hrest next List.mem_cons_self).ne_nil
        | cons => simp [List.intercalate_cons_of_ne_nil]
      rw [List.intercalate_cons_of_ne_nil (by simp), List.getLast?_append_of_ne_nil _ hne]
      exact ih hrest

theorem infix_iff_not_isChain :
    ['/', '/'] <:+: cs ↔ ¬ cs.IsChain fun c d => ¬ (c = '/' ∧ d = '/') := by
  rw [List.isChain_iff_forall_rel_of_append_cons_cons]
  constructor
  · rintro ⟨front, back, rfl⟩ h
    have hsplit : front ++ ['/', '/'] ++ back = front ++ '/' :: '/' :: back := by simp
    exact h hsplit ⟨rfl, rfl⟩
  · intro h
    push Not at h
    obtain ⟨_, _, front, back, rfl, rfl, rfl⟩ := h
    exact ⟨front, back, by simp⟩

/-- A slash between parts stands alone, so two in a row are inside one part. -/
theorem infix_intercalate_iff (h : ∀ text ∈ texts, IsPart text) :
    ['/', '/'] <:+: ['/'].intercalate texts ↔ ∃ text ∈ texts, ['/', '/'] <:+: text := by
  induction texts with
  | nil => simp
  | cons text rest ih =>
    obtain ⟨htext, hrest⟩ := List.forall_mem_cons.mp h
    cases rest with
    | nil => simp
    | cons next rest =>
      rw [List.exists_mem_cons_iff, ← ih hrest, List.intercalate_cons_of_ne_nil (by simp),
        List.append_assoc, List.singleton_append]
      have hbegins := begins_intercalate hrest
      generalize ['/'].intercalate (next :: rest) = joined at hbegins
      simp only [infix_iff_not_isChain, List.isChain_append, List.isChain_cons, ← not_and_or,
        not_iff_not]
      constructor
      · rintro ⟨hinside, ⟨-, hbehind⟩, -⟩
        exact ⟨hinside, hbehind⟩
      · rintro ⟨hinside, hbehind⟩
        -- Neither neighbour of the slash between the two is a slash.
        refine ⟨hinside, ⟨fun d hd hslash => ?_, hbehind⟩, fun c hc _ _ hslash => ?_⟩
        · exact hbegins (hslash.2 ▸ hd)
        · exact htext.ends (hslash.1 ▸ hc)

/-! The path of a chain -/

theorem begins_join (segments : List String) : (join segments).toList.head? ≠ some '/' := by
  rw [join, String.toList_ofList]
  exact begins_intercalate fun _ => isPart_of_mem_parts

theorem ends_join (segments : List String) : (join segments).toList.getLast? ≠ some '/' := by
  rw [join, String.toList_ofList]
  exact ends_intercalate fun _ => isPart_of_mem_parts

theorem infix_join_iff : ['/', '/'] <:+: (join segments).toList ↔
    ∃ segment ∈ segments, ['/', '/'] <:+: Text.trimSlashes segment.toList := by
  rw [join, String.toList_ofList, infix_intercalate_iff fun _ => isPart_of_mem_parts]
  constructor
  · rintro ⟨_, hpart, hinfix⟩
    obtain ⟨-, segment, hsegment, rfl⟩ := mem_parts.mp hpart
    exact ⟨segment, hsegment, hinfix⟩
  · rintro ⟨segment, hsegment, hinfix⟩
    have hne : Text.trimSlashes segment.toList ≠ [] := fun hnil => by simp [hnil] at hinfix
    exact ⟨_, mem_parts.mpr ⟨hne, segment, hsegment, rfl⟩, hinfix⟩

theorem splitOn_join (h : join segments ≠ "") :
    (join segments).toList.splitOn '/' = pieces segments := by
  rw [join, String.toList_ofList]
  exact splitOn_intercalate_parts (mt join_eq_empty_iff.mpr h)

theorem begins_bare (segment : String) : (bare segment).toList.head? ≠ some '/' := by
  rw [bare, String.toList_ofList]
  exact Text.head?_trimSlashes_ne _

/-- No install path begins or ends with a slash, and it has two slashes in a row exactly if one of
its segments has them between other characters. -/
theorem ofChain_normal (outputRoot : String) (chain : Chain) :
    (ofChain outputRoot chain).toList.head? ≠ some '/' ∧
    (ofChain outputRoot chain).toList.getLast? ≠ some '/' ∧
    (['/', '/'] <:+: (ofChain outputRoot chain).toList ↔
      ∃ segment ∈ chainSegments outputRoot chain,
        ['/', '/'] <:+: Text.trimSlashes segment.toList) := by
  rw [ofChain_eq_join]
  exact ⟨begins_join _, ends_join _, infix_join_iff⟩

/-- A library inside an image, under a name with an empty piece in it. -/
def doubledChain : Chain :=
  ⟨{ id := "image", kind := .container, installName := "system.img" },
    [⟨⟨"lib", .container, some "/lib//lib.so/"⟩, { id := "lib", installName := "lib.so" }⟩]⟩

theorem ofChain_doubles_slash : ofChain "out" doubledChain = "out/system.img/lib//lib.so" ∧
    ['/', '/'] <:+: (ofChain "out" doubledChain).toList :=
  ⟨by decide, "out/system.img/lib".toList, "lib.so".toList, by decide⟩

/-- Two install paths are the same text exactly if their components are the same, and any path with
something in it tells its components between its slashes. -/
theorem ofChain_eq_iff_components (outputRoot : String) (chain chain' : Chain) :
    (ofChain outputRoot chain = ofChain outputRoot chain' ↔
      components outputRoot chain = components outputRoot chain') ∧
    (ofChain outputRoot chain ≠ "" →
      (ofChain outputRoot chain).toList.splitOn '/' = components outputRoot chain) := by
  rw [ofChain_eq_join, ofChain_eq_join]
  exact ⟨join_eq_iff, splitOn_join⟩

/-- A directory inside a library that is a root of its own, under a name that adds nothing. -/
def flattenedChain : Chain :=
  ⟨{ id := "lib", kind := .container, installName := "lib//lib.so"
     installDir := some "system.img/" },
    [⟨⟨"files", .container, some "/"⟩, { id := "files", installName := "files" }⟩]⟩

theorem ofChain_eq_iff_components_doubled :
    ofChain "out" doubledChain = ofChain "out" flattenedChain ∧ ofChain "out" doubledChain ≠ "" ∧
    ((ofChain "out" doubledChain).toList.splitOn '/').map String.ofList =
      ["out", "system.img", "lib", "", "lib.so"] := by
  obtain ⟨hsame, hsplit⟩ := ofChain_eq_iff_components "out" doubledChain flattenedChain
  have hne : ofChain "out" doubledChain ≠ "" := by decide
  refine ⟨hsame.mpr (by decide), hne, ?_⟩
  rw [hsplit hne]
  decide

end LicenseNotice.InstallPath
