import Mathlib.Data.List.Forall2
import LicenseNotice.Report.Text

/-! # The lines of the text report

Without license texts a report is the title and then, line by line, its sections. The lines can be
read back: a marker is no heading of a block, and an install is never an empty line. So the report
tells the categories and the blocks, as long as no name in it spreads over several lines.
-/

namespace LicenseNotice

set_option autoImplicit false

def OnOneLine (text : String) : Prop := '\n' ∉ text.toList

instance (text : String) : Decidable (OnOneLine text) :=
  inferInstanceAs (Decidable ('\n' ∉ text.toList))

theorem OnOneLine.append {text more : String} (h : OnOneLine text) (h' : OnOneLine more) :
    OnOneLine (text ++ more) := by
  simp only [OnOneLine, String.toList_append, List.mem_append, not_or]
  exact ⟨h, h'⟩

/-- Neither a library nor an install path breaks the line. -/
def LibraryBlock.OnLines (block : LibraryBlock) : Prop :=
  OnOneLine block.library ∧ ∀ path ∈ block.installs, OnOneLine path

theorem Category.marker_injective {a b : Category} (h : a.marker = b.marker) : a = b := by
  cases a <;> cases b <;> simp [marker] at h ⊢

theorem Category.marker_onOneLine (c : Category) : OnOneLine c.marker := by
  cases c <;> decide

namespace TextReport

def heading (library : String) : String := library ++ " used by:"

def indented (path : String) : String := "  " ++ path

def blockLines (block : LibraryBlock) : List String :=
  heading block.library :: (block.installs.map indented ++ [""])

def sectionLines (s : Section) : List String :=
  horizontalRule :: (s.blocks.flatMap blockLines ++ [s.notice.marker, ""])

def unlines (lines : List String) : String := String.join (lines.map line)

theorem unlines_cons (text : String) (lines : List String) :
    unlines (text :: lines) = line text ++ unlines lines := by
  simp [unlines]

theorem unlines_append (lines more : List String) :
    unlines (lines ++ more) = unlines lines ++ unlines more := by
  simp [unlines]

theorem unlines_flatMap {α : Type} (f : α → List String) (items : List α) :
    unlines (items.flatMap f) = String.join (items.map fun item => unlines (f item)) := by
  induction items with
  | nil => rfl
  | cons item rest ih => rw [List.flatMap_cons, unlines_append, ih, List.map_cons, String.join_cons]

theorem blockText_nil (block : LibraryBlock) : blockText [] block = unlines (blockLines block) := by
  have hinstalls : String.join (block.installs.map fun path => line ("  " ++ strip [] path)) =
      unlines (block.installs.map indented) := by
    rw [unlines, List.map_map]
    rfl
  rw [blockText, hinstalls, blockLines, unlines_cons, unlines_append, ← String.append_assoc]
  rfl

theorem sectionText_nil (s : Section) : sectionText [] .empty s = unlines (sectionLines s) := by
  have htext : ((LicenseTexts.empty.get? s.notice).elim "" closed) = "" := by
    cases h : s.notice.text <;> simp [LicenseTexts.get?, h, LicenseTexts.empty, Keyed.get?]
  have hblocks : String.join (s.blocks.map (blockText [])) = unlines (s.blocks.flatMap blockLines) := by
    rw [unlines_flatMap]
    exact congrArg (fun f => String.join (s.blocks.map f)) (funext blockText_nil)
  rw [sectionText, htext, hblocks, sectionLines, unlines_cons, unlines_append]
  simp [unlines, String.append_assoc]

theorem render_nil (title : Option String) (ss : List Section) :
    render ⟨title, []⟩ .empty ss = titleText title ++ unlines (ss.flatMap sectionLines) := by
  rw [render, unlines_flatMap]
  exact congrArg (fun f => titleText title ++ String.join (ss.map f)) (funext sectionText_nil)

/-! From a text to its lines -/

theorem toList_unlines (lines : List String) :
    (unlines lines).toList = ['\n'].intercalate (lines.map String.toList ++ [[]]) := by
  induction lines with
  | nil => rfl
  | cons text rest ih =>
    rw [unlines_cons, String.toList_append, ih, List.map_cons, List.cons_append,
      List.intercalate_cons_of_ne_nil (by simp), line, String.toList_append]
    rfl

theorem unlines_injective {lines lines' : List String} (h : ∀ text ∈ lines, OnOneLine text)
    (h' : ∀ text ∈ lines', OnOneLine text) (heq : unlines lines = unlines lines') :
    lines = lines' := by
  have hsplit : ∀ lines : List String, (∀ text ∈ lines, OnOneLine text) →
      (unlines lines).toList.splitOn '\n' = lines.map String.toList ++ [[]] := by
    intro lines hlines
    rw [toList_unlines, List.splitOn_intercalate _ _ (by simp)]
    intro cs hcs
    rcases List.mem_append.mp hcs with hcs | hcs
    · obtain ⟨text, htext, rfl⟩ := List.mem_map.mp hcs
      exact hlines text htext
    · simp [List.mem_singleton.mp hcs]
  have hlists : lines.map String.toList = lines'.map String.toList := by
    have happend := hsplit lines h
    rw [heq, hsplit lines' h'] at happend
    exact (List.append_cancel_right happend).symm
  exact List.map_injective_iff.mpr (fun _ _ => String.toList_inj.mp) hlists

/-! From the lines to the sections -/

theorem marker_ne_heading (c : Category) (library : String) : c.marker ≠ heading library := by
  intro h
  have hlast : c.marker.toList.getLast? = some ':' := by
    rw [h, heading, String.toList_append, List.getLast?_append]
    rfl
  revert hlast
  cases c <;> decide

/-- The installs of a block end at its first empty line. -/
theorem installs_injective {paths paths' more more' : List String}
    (h : paths.map indented ++ "" :: more = paths'.map indented ++ "" :: more') :
    paths = paths' ∧ more = more' := by
  induction paths generalizing paths' with
  | nil =>
    cases paths' with
    | nil => exact ⟨rfl, (List.cons.inj h).2⟩
    | cons path' rest' => simp [indented] at h
  | cons path rest ih =>
    cases paths' with
    | nil => simp [indented] at h
    | cons path' rest' =>
      obtain ⟨hpath, hrest⟩ := List.cons.inj h
      obtain ⟨rfl, rfl⟩ := ih hrest
      exact ⟨congrArg (· :: rest) ((String.append_right_inj _).mp hpath), rfl⟩

/-- The blocks of a section end at its marker. -/
theorem blocks_injective {blocks blocks' : List LibraryBlock} {c c' : Category}
    {more more' : List String} (h : blocks.flatMap blockLines ++ c.marker :: more =
      blocks'.flatMap blockLines ++ c'.marker :: more') :
    blocks = blocks' ∧ c = c' ∧ more = more' := by
  induction blocks generalizing blocks' with
  | nil =>
    cases blocks' with
    | nil =>
      obtain ⟨hmarker, hmore⟩ := List.cons.inj h
      exact ⟨rfl, Category.marker_injective hmarker, hmore⟩
    | cons block' rest' => exact absurd (List.cons.inj h).1 (marker_ne_heading c _)
  | cons block rest ih =>
    cases blocks' with
    | nil => exact absurd (List.cons.inj h).1.symm (marker_ne_heading c' _)
    | cons block' rest' =>
      obtain ⟨library, installs⟩ := block
      obtain ⟨library', installs'⟩ := block'
      simp only [List.flatMap_cons, blockLines, List.cons_append, List.append_assoc,
        List.nil_append] at h
      obtain ⟨hheading, hlines⟩ := List.cons.inj h
      obtain ⟨rfl, hrest⟩ := installs_injective hlines
      obtain ⟨rfl, rfl, rfl⟩ := ih hrest
      have hlibrary : library = library' := (String.append_left_inj _).mp hheading
      exact ⟨hlibrary ▸ rfl, rfl, rfl⟩

/-- The sections agree in all that a report without license texts tells. -/
def SameReport (s s' : Section) : Prop := s.category = s'.category ∧ s.blocks = s'.blocks

theorem sections_injective {ss ss' : List Section}
    (h : ss.flatMap sectionLines = ss'.flatMap sectionLines) : List.Forall₂ SameReport ss ss' := by
  induction ss generalizing ss' with
  | nil =>
    cases ss' with
    | nil => exact .nil
    | cons s' rest' => cases h
  | cons s rest ih =>
    cases ss' with
    | nil => cases h
    | cons s' rest' =>
      simp only [List.flatMap_cons, sectionLines, List.cons_append, List.append_assoc,
        List.nil_append] at h
      obtain ⟨hblocks, hcategory, hmore⟩ := blocks_injective (List.cons.inj h).2
      exact .cons ⟨hcategory, hblocks⟩ (ih (List.cons.inj hmore).2)

theorem onOneLine_of_mem_blockLines {block : LibraryBlock} (h : block.OnLines) :
    ∀ text ∈ blockLines block, OnOneLine text := by
  obtain ⟨hlibrary, hinstalls⟩ := h
  intro text htext
  rcases List.mem_cons.mp htext with rfl | htext
  · exact hlibrary.append (by decide)
  · rcases List.mem_append.mp htext with htext | htext
    · obtain ⟨path, hpath, rfl⟩ := List.mem_map.mp htext
      exact OnOneLine.append (by decide) (hinstalls path hpath)
    · exact List.mem_singleton.mp htext ▸ (by decide)

theorem onOneLine_of_mem_sectionLines {s : Section} (h : ∀ block ∈ s.blocks, block.OnLines) :
    ∀ text ∈ sectionLines s, OnOneLine text := by
  intro text htext
  rcases List.mem_cons.mp htext with rfl | htext
  · decide
  · rcases List.mem_append.mp htext with htext | htext
    · obtain ⟨block, hblock, htext⟩ := List.mem_flatMap.mp htext
      exact onOneLine_of_mem_blockLines (h block hblock) text htext
    · rcases List.mem_pair.mp htext with rfl | rfl
      · exact Category.marker_onOneLine _
      · decide

theorem onOneLine_of_mem_lines {ss : List Section}
    (h : ∀ s ∈ ss, ∀ block ∈ s.blocks, block.OnLines) :
    ∀ text ∈ ss.flatMap sectionLines, OnOneLine text := by
  intro text htext
  obtain ⟨s, hs, htext⟩ := List.mem_flatMap.mp htext
  exact onOneLine_of_mem_sectionLines (h s hs) text htext

theorem sectionLines_congr {s s' : Section} (h : SameReport s s') :
    sectionLines s = sectionLines s' := by
  obtain ⟨hcategory, hblocks⟩ := h
  rw [sectionLines, sectionLines, hblocks, NoticeKey.marker, NoticeKey.marker]
  exact congrArg (fun c => horizontalRule :: (s'.blocks.flatMap blockLines ++ [c.marker, ""])) hcategory

/-- Two reports under one title, without license texts, are the same text exactly if they have the
same number of sections and tell the same of each. -/
theorem render_eq_iff (title : Option String) {ss ss' : List Section}
    (h : ∀ s ∈ ss, ∀ block ∈ s.blocks, block.OnLines)
    (h' : ∀ s ∈ ss', ∀ block ∈ s.blocks, block.OnLines) :
    render ⟨title, []⟩ .empty ss = render ⟨title, []⟩ .empty ss' ↔
      List.Forall₂ (fun s s' => s.category = s'.category ∧ s.blocks = s'.blocks) ss ss' := by
  rw [render_nil, render_nil, String.append_right_inj]
  constructor
  · intro heq
    exact sections_injective
      (unlines_injective (onOneLine_of_mem_lines h) (onOneLine_of_mem_lines h') heq)
  · intro hsame
    have hlines : ss.flatMap sectionLines = ss'.flatMap sectionLines := by
      clear h h'
      induction hsame with
      | nil => rfl
      | cons hs _ ih => rw [List.flatMap_cons, List.flatMap_cons, ih, sectionLines_congr hs]
    rw [hlines]

/-- A library that looks like a rule, an install that looks like a heading, and an empty block. -/
def maskedSections (text : Option String) : List Section :=
  [⟨⟨.notice, text⟩, [⟨"======", ["  x used by:", ""]⟩, ⟨"%%%Notice License%%%", []⟩]⟩,
    ⟨⟨.restricted, none⟩, []⟩]

theorem render_eq_iff_masked :
    (∀ s ∈ maskedSections none, ∀ block ∈ s.blocks, block.OnLines) ∧
    (∀ s ∈ maskedSections (some "a/NOTICE"), ∀ block ∈ s.blocks, block.OnLines) ∧
    render ⟨some "Title", []⟩ .empty (maskedSections none) =
      render ⟨some "Title", []⟩ .empty (maskedSections (some "a/NOTICE")) ∧
    List.Forall₂ (fun s s' => s.category = s'.category ∧ s.blocks = s'.blocks)
      (maskedSections none) (maskedSections (some "a/NOTICE")) := by
  have hlines : ∀ text, ∀ s ∈ maskedSections text, ∀ block ∈ s.blocks, block.OnLines := by
    intro text
    simp only [maskedSections, List.forall_mem_cons, LibraryBlock.OnLines]
    decide
  have hsame : List.Forall₂ (fun s s' => s.category = s'.category ∧ s.blocks = s'.blocks)
      (maskedSections none) (maskedSections (some "a/NOTICE")) :=
    .cons ⟨rfl, rfl⟩ (.cons ⟨rfl, rfl⟩ .nil)
  exact ⟨hlines _, hlines _,
    (render_eq_iff (some "Title") (hlines none) (hlines (some "a/NOTICE"))).mpr hsame, hsame⟩

end TextReport

end LicenseNotice
