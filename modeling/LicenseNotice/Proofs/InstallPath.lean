import LicenseNotice.InstallPath
import LicenseNotice.Proofs.Text.Trimming

/-! # What an install path tells

An install path tells the pieces between the slashes of its segments, and nothing about how the
pieces were put into segments. Chains from one root have different paths exactly if the pieces of
their shipped names differ, which differing names ensure as long as a name is one piece. One more
step puts its name behind the path, if the name has anything besides slashes.
-/

namespace LicenseNotice

set_option autoImplicit false

/-- The names that the members on a chain are shipped under, from the root down. -/
def Chain.names (chain : Chain) : List String := chain.steps.map (·.segment)

/-- A segment without the slashes around it. -/
def InstallPath.bare (segment : String) : String := String.ofList (Text.trimSlashes segment.toList)

theorem InstallPath.bare_eq_empty_iff {segment : String} :
    bare segment = "" ↔ ∀ c ∈ segment.toList, c = '/' := by
  rw [bare, String.ofList_eq_empty_iff, Text.trimSlashes, Text.trimBy_eq_nil_iff]
  simp only [Text.isSlash, beq_iff_eq]

namespace InstallPath

variable {segments segments' : List String}

/-- The pieces between slashes, in order. A piece inside a segment may be empty. -/
def pieces (segments : List String) : List (List Char) :=
  (parts segments).flatMap (·.splitOn '/')

theorem parts_append (segments more : List String) :
    parts (segments ++ more) = parts segments ++ parts more := by
  rw [parts, List.map_append, List.filter_append]
  rfl

theorem pieces_append (segments more : List String) :
    pieces (segments ++ more) = pieces segments ++ pieces more := by
  rw [pieces, parts_append, List.flatMap_append]
  rfl

theorem ne_nil_of_mem_parts {part : List Char} (h : part ∈ parts segments) : part ≠ [] := by
  simpa using (List.mem_filter.mp h).2

theorem splitOn_intercalate_eq_flatMap {texts : List (List Char)} (hne : texts ≠ []) :
    (['/'].intercalate texts).splitOn '/' = texts.flatMap (·.splitOn '/') := by
  induction texts with
  | nil => exact absurd rfl hne
  | cons text rest ih =>
    cases rest with
    | nil => simp
    | cons next rest =>
      rw [List.intercalate_cons_of_ne_nil (by simp), List.append_assoc, List.singleton_append,
        List.splitOn_append_cons_self, ih (by simp)]
      rfl

theorem intercalate_parts_eq_nil_iff :
    ['/'].intercalate (parts segments) = [] ↔ parts segments = [] := by
  constructor
  · intro h
    cases hparts : parts segments with
    | nil => rfl
    | cons part rest =>
      have hpart : part ≠ [] := ne_nil_of_mem_parts (hparts ▸ List.mem_cons_self)
      rw [hparts] at h
      cases rest with
      | nil => exact absurd (by simpa using h) hpart
      | cons next rest =>
        rw [List.intercalate_cons_of_ne_nil (by simp)] at h
        simp at h
  · intro h
    rw [h]
    rfl

/-- The joined path has the pieces of its segments, unless no segment is left. -/
theorem splitOn_intercalate_parts (h : parts segments ≠ []) :
    (['/'].intercalate (parts segments)).splitOn '/' = pieces segments :=
  splitOn_intercalate_eq_flatMap h

theorem intercalate_pieces (segments : List String) :
    ['/'].intercalate (pieces segments) = ['/'].intercalate (parts segments) := by
  by_cases h : parts segments = []
  · rw [pieces, h]
    rfl
  · rw [← splitOn_intercalate_parts h, List.intercalate_splitOn]

theorem pieces_eq_nil_iff : pieces segments = [] ↔ parts segments = [] := by
  constructor
  · intro h
    rw [← intercalate_parts_eq_nil_iff, ← intercalate_pieces, h]
    rfl
  · intro h
    rw [pieces, h]
    rfl

theorem join_eq_iff : join segments = join segments' ↔ pieces segments = pieces segments' := by
  rw [join, join, String.ofList_inj]
  constructor
  · intro h
    -- The empty text splits into one empty piece, but stands for no pieces at all.
    by_cases hparts : parts segments = []
    · rw [hparts] at h
      have hparts' := intercalate_parts_eq_nil_iff.mp h.symm
      rw [pieces_eq_nil_iff.mpr hparts, pieces_eq_nil_iff.mpr hparts']
    · have hparts' : parts segments' ≠ [] := fun hnil =>
        hparts (intercalate_parts_eq_nil_iff.mp (h.trans (intercalate_parts_eq_nil_iff.mpr hnil)))
      rw [← splitOn_intercalate_parts hparts, h, splitOn_intercalate_parts hparts']
  · intro h
    rw [← intercalate_pieces, h, intercalate_pieces]

/-- A name that is not empty and has no slash in it. -/
def IsPiece (name : String) : Prop := name ≠ "" ∧ '/' ∉ name.toList

instance (name : String) : Decidable (IsPiece name) :=
  inferInstanceAs (Decidable (name ≠ "" ∧ '/' ∉ name.toList))

theorem trimSlashes_of_not_mem {cs : List Char} (h : '/' ∉ cs) : Text.trimSlashes cs = cs := by
  have hkept : ∀ c ∈ cs, ¬ Text.isSlash c := fun c hc hslash => h (beq_iff_eq.mp hslash ▸ hc)
  have hfront : cs.dropWhile Text.isSlash = cs :=
    List.dropWhile_eq_self_iff.mpr fun hlength => hkept _ (List.getElem_mem hlength)
  rw [Text.trimSlashes, Text.trimBy, hfront]
  exact List.rdropWhile_eq_self_iff.mpr fun hne => hkept _ (List.getLast_mem hne)

theorem pieces_of_isPiece (h : ∀ name ∈ segments, IsPiece name) :
    pieces segments = segments.map (·.toList) := by
  induction segments with
  | nil => rfl
  | cons name rest ih =>
    obtain ⟨⟨hne, hslash⟩, hrest⟩ := List.forall_mem_cons.mp h
    have hname : pieces [name] = [name.toList] := by
      simp [pieces, parts, trimSlashes_of_not_mem hslash, hne, List.splitOn_eq_singleton hslash]
    rw [List.map_cons, ← ih hrest, ← List.singleton_append, pieces_append, hname]
    rfl

theorem ofChain_eq_iff {outputRoot : String} {chain chain' : Chain}
    (hroot : chain.root = chain'.root) :
    ofChain outputRoot chain = ofChain outputRoot chain' ↔
      pieces chain.names = pieces chain'.names := by
  rw [ofChain, ofChain, join_eq_iff, pieces_append, pieces_append, hroot, List.append_cancel_left_eq]
  rfl

theorem ofChain_ne_of_isPiece {outputRoot : String} {chain chain' : Chain}
    (hroot : chain.root = chain'.root) (h : ∀ name ∈ chain.names, IsPiece name)
    (h' : ∀ name ∈ chain'.names, IsPiece name) (hnames : chain.names ≠ chain'.names) :
    ofChain outputRoot chain ≠ ofChain outputRoot chain' := by
  intro heq
  have hpieces := (ofChain_eq_iff hroot).mp heq
  rw [pieces_of_isPiece h, pieces_of_isPiece h'] at hpieces
  exact hnames ((List.map_inj_right fun _ _ => String.toList_inj.mp).mp hpieces)

/-! More segments -/

theorem intercalate_append {texts more : List (List Char)} (hne : texts ≠ []) (hmore : more ≠ []) :
    ['/'].intercalate (texts ++ more) = ['/'].intercalate texts ++ '/' :: ['/'].intercalate more := by
  induction texts with
  | nil => exact absurd rfl hne
  | cons first rest ih =>
    cases rest with
    | nil => simp [List.intercalate_cons_of_ne_nil hmore]
    | cons next rest =>
      rw [List.cons_append, List.intercalate_cons_of_ne_nil (by simp),
        List.intercalate_cons_of_ne_nil (by simp), ih (by simp), List.append_assoc _ _ ('/' :: _)]

theorem join_eq_empty_iff : join segments = "" ↔ parts segments = [] := by
  rw [join, String.ofList_eq_empty_iff, intercalate_parts_eq_nil_iff]

/-- One slash stands between two paths, unless there is nothing of one of them. -/
theorem join_append (segments more : List String) : join (segments ++ more) =
    if join segments = "" then join more
    else if join more = "" then join segments else join segments ++ "/" ++ join more := by
  rw [join, parts_append]
  by_cases hparts : parts segments = []
  · rw [if_pos (join_eq_empty_iff.mpr hparts), hparts]
    rfl
  · rw [if_neg (mt join_eq_empty_iff.mp hparts)]
    by_cases hmore : parts more = []
    · rw [if_pos (join_eq_empty_iff.mpr hmore), hmore, List.append_nil]
      rfl
    · have hslash : String.ofList ('/' :: ['/'].intercalate (parts more)) =
          "/" ++ String.ofList (['/'].intercalate (parts more)) := String.ofList_cons
      rw [if_neg (mt join_eq_empty_iff.mp hmore), intercalate_append hparts hmore,
        String.ofList_append, hslash, join, join, String.append_assoc]

theorem join_singleton (segment : String) : join [segment] = bare segment := by
  rw [join, parts, bare]
  by_cases h : Text.trimSlashes segment.toList = [] <;> simp [h]

section Extending

variable {outputRoot : String} {chain : Chain} {step : Step}

theorem ofChain_extend_eq_ite (outputRoot : String) (chain : Chain) (step : Step) :
    ofChain outputRoot (chain.extend step) =
      if ofChain outputRoot chain = "" then bare step.segment
      else if bare step.segment = "" then ofChain outputRoot chain
      else ofChain outputRoot chain ++ "/" ++ bare step.segment := by
  have hsegments : ofChain outputRoot (chain.extend step) =
      join ((rootSegments outputRoot chain.root ++ chain.names) ++ [step.segment]) := by
    simp [ofChain, Chain.extend, Chain.names]
  rw [hsegments, join_append, join_singleton]
  rfl

theorem ofChain_extend_of_skipped (h : bare step.segment = "") :
    ofChain outputRoot (chain.extend step) = ofChain outputRoot chain := by
  rw [ofChain_extend_eq_ite, h]
  split
  case isTrue hempty => exact hempty.symm
  case isFalse => rfl

theorem ofChain_extend (h : bare step.segment ≠ "") : ofChain outputRoot (chain.extend step) =
    if ofChain outputRoot chain = "" then bare step.segment
    else ofChain outputRoot chain ++ "/" ++ bare step.segment := by
  rw [ofChain_extend_eq_ite, if_neg h]

theorem ofChain_extend_eq_iff :
    ofChain outputRoot (chain.extend step) = ofChain outputRoot chain ↔ bare step.segment = "" := by
  refine ⟨fun heq => ?_, ofChain_extend_of_skipped⟩
  by_contra hname
  rw [ofChain_extend hname] at heq
  split at heq
  case isTrue hempty => exact hname (heq.trans hempty)
  case isFalse =>
    have hlength := congrArg String.length heq
    simp only [String.length_append] at hlength
    have hslash : "/".length = 1 := rfl
    omega

end Extending

end InstallPath

end LicenseNotice
