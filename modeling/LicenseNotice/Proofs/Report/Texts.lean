import LicenseNotice.Proofs.LicenseTexts

/-! # License texts in the report

A table that was loaded for sections has the text of each of them, so that a report with this table
shows below every marker line what stands in the file of the section's key.
-/

namespace LicenseNotice

set_option autoImplicit false

namespace LicenseTexts

variable {fs : FileSystem} {warnings later : List Warning} {root key : String}
  {sections : List Section} {texts : LicenseTexts}

theorem get?_of_no_key {notice : NoticeKey} (h : notice.text = none) : texts.get? notice = none := by
  rw [get?, h, Option.bind_none]

theorem size_of_load (h : fs.load warnings (load root sections) = (.ok texts, later)) :
    texts.size = (sections.filterMap (·.notice.text)).toFinset.card := by
  rw [← length_keysOf, ← (entries_of_load h).1, size, Keyed.keys, List.length_map]

/-- Every section with a key finds the text of its own file. -/
theorem get?_of_load (h : fs.load warnings (load root sections) = (.ok texts, later))
    {s : Section} (hs : s ∈ sections) (hkey : s.notice.text = some key) :
    ∃ content, fs.read (Location.join root key) = .ok content ∧
      texts.get? s.notice = some content := by
  obtain ⟨hkeys, hcontents⟩ := entries_of_load h
  have hmem : key ∈ Keyed.keys texts.entries := by
    rw [hkeys, mem_keysOf]
    exact ⟨s, hs, hkey⟩
  have hunique : (Keyed.keys texts.entries).Nodup := hkeys ▸ nodup_keysOf sections
  obtain ⟨⟨_, content⟩, hentry, rfl⟩ := List.mem_map.mp hmem
  refine ⟨content, hcontents _ _ hentry, ?_⟩
  rw [get?, hkey, Option.bind_some]
  exact Keyed.get?_of_mem hunique hentry

end LicenseTexts

namespace TextReport

open LicenseTexts (load)

/-- What a notice shows below its marker line: nothing without a key, else the text in the file of
the key, with a line feed behind it where it does not end in one. -/
inductive Payload (fs : FileSystem) (root : String) : NoticeKey → String → Prop
  | none {category : Category} : Payload fs root ⟨category, none⟩ ""
  | whole {category : Category} {key content : String} :
      fs.read (Location.join root key) = .ok content → content.toList.getLast? = some '\n' →
      Payload fs root ⟨category, some key⟩ content
  | completed {category : Category} {key content : String} :
      fs.read (Location.join root key) = .ok content → content.toList.getLast? ≠ some '\n' →
      Payload fs root ⟨category, some key⟩ (content ++ "\n")

/-- A section as it is written: its blocks below a rule, its marker line, what its notice shows, and
an empty line. -/
def Written (fs : FileSystem) (root : String) (leads : List String) (s : Section)
    (part : String) : Prop :=
  ∃ payload, Payload fs root s.notice payload ∧
    part = line horizontalRule ++ String.join (s.blocks.map (blockText leads)) ++
      line s.notice.marker ++ payload ++ "\n"

variable {fs : FileSystem} {warnings later : List Warning} {root : String}
  {sections : List Section} {texts : LicenseTexts}

theorem payload_of_load (h : fs.load warnings (load root sections) = (.ok texts, later))
    {s : Section} (hs : s ∈ sections) :
    Payload fs root s.notice ((texts.get? s.notice).elim "" closed) := by
  obtain ⟨⟨category, _ | key⟩, blocks⟩ := s
  · exact .none
  · obtain ⟨content, hread, hget⟩ := LicenseTexts.get?_of_load h hs rfl
    rw [hget, Option.elim_some, closed]
    split
    case isTrue hclosed => exact .whole hread hclosed
    case isFalse hopen => exact .completed hread hopen

/-- License texts load exactly if the file of every key that a section names can be read. Then the
table has one text for each key, every section finds the text of its own key, and the report writes
the sections one after the other, each with its text right below its marker line. -/
theorem render_loaded (fs : FileSystem) (warnings : List Warning) (root : String)
    (sections : List Section) :
    ((∃ texts, fs.load warnings (load root sections) = (.ok texts, warnings)) ↔
      ∀ s ∈ sections, ∀ key, s.notice.text = some key →
        ∃ content, fs.read (Location.join root key) = .ok content) ∧
    ∀ texts later, fs.load warnings (load root sections) = (.ok texts, later) →
      texts.size = (sections.filterMap (·.notice.text)).toFinset.card ∧
      (∀ s ∈ sections, s.notice.text = none → texts.get? s.notice = none) ∧
      (∀ s ∈ sections, ∀ key, s.notice.text = some key →
        ∃ content, fs.read (Location.join root key) = .ok content ∧
          texts.get? s.notice = some content) ∧
      ∀ options, ∃ parts, List.Forall₂ (Written fs root options.stripPrefixes) sections parts ∧
        render options texts sections = titleText options.title ++ String.join parts := by
  refine ⟨LicenseTexts.exists_load_iff, fun texts later h => ⟨LicenseTexts.size_of_load h, ?_, ?_, ?_⟩⟩
  · exact fun s _ hnone => LicenseTexts.get?_of_no_key hnone
  · exact fun s hs key hkey => LicenseTexts.get?_of_load h hs hkey
  · intro options
    refine ⟨sections.map (sectionText options.stripPrefixes texts), ?_, rfl⟩
    rw [List.forall₂_map_right_iff, List.forall₂_same]
    exact fun s hs => ⟨_, payload_of_load h hs, rfl⟩

/-- Two categories that name one text, and one that names none. -/
def zlibSections : List Section :=
  [⟨⟨.notice, some "external/zlib/NOTICE"⟩, [⟨"zlib", ["out/app"]⟩]⟩,
    ⟨⟨.restricted, some "external/zlib/NOTICE"⟩, [⟨"zlib", ["out/app"]⟩]⟩,
    ⟨⟨.reciprocal, none⟩, []⟩]

theorem render_loaded_zlib : ∃ texts,
    LicenseTexts.zlibDirectory.load [] (load "texts" zlibSections) = (.ok texts, []) ∧
    texts.size = 1 ∧
    texts.get? ⟨.restricted, some "external/zlib/NOTICE"⟩ = some "Copyright zlib authors\n" ∧
    texts.get? ⟨.reciprocal, none⟩ = none := by
  have hread : LicenseTexts.zlibDirectory.read
      (Location.join "texts" "external/zlib/NOTICE") = .ok "Copyright zlib authors\n" := by
    decide +kernel
  obtain ⟨hloads, hloaded⟩ := render_loaded LicenseTexts.zlibDirectory [] "texts" zlibSections
  have hreadable : ∀ s ∈ zlibSections, ∀ key, s.notice.text = some key → ∃ content,
      LicenseTexts.zlibDirectory.read (Location.join "texts" key) = .ok content := by
    simp [zlibSections, hread]
  obtain ⟨texts, htexts⟩ := hloads.mpr hreadable
  obtain ⟨hsize, hnone, hsome, -⟩ := hloaded texts [] htexts
  obtain ⟨content, hcontent, hget⟩ := hsome
    ⟨⟨.restricted, some "external/zlib/NOTICE"⟩, [⟨"zlib", ["out/app"]⟩]⟩ (by decide) _ rfl
  obtain rfl : content = _ := Except.ok.inj (hcontent.symm.trans hread)
  exact ⟨texts, htexts, hsize.trans (by decide), hget, hnone ⟨⟨.reciprocal, none⟩, []⟩ (by decide) rfl⟩

end TextReport

end LicenseNotice
