import LicenseNotice.Proofs.Codec.Fields
import LicenseNotice.Report.Json

/-! # Reading the JSON report back

The report is a record of lists, records and texts, so it is parsed to what was printed, and the
codecs of its parts are inverted one by one.
-/

namespace LicenseNotice

set_option autoImplicit false

open Codec

theorem NoticeKey.plain_toDatum (key : NoticeKey) : key.toDatum.Plain :=
  Datum.plain_ofFields (by simp [Datum.Plain.text])

theorem LibraryBlock.plain_toDatum (block : LibraryBlock) : block.toDatum.Plain := by
  refine .record fun field hfield => ?_
  rcases List.mem_pair.mp hfield with rfl | rfl
  · exact .text block.library
  · exact Datum.plain_list_map .text block.installs

theorem Section.plain_toDatum (s : Section) : s.toDatum.Plain := by
  refine .record fun field hfield => ?_
  rcases List.mem_pair.mp hfield with rfl | rfl
  · exact s.notice.plain_toDatum
  · exact Datum.plain_list_map LibraryBlock.plain_toDatum s.blocks

namespace JsonReport

theorem plain_toDatum (roots : List String) (sections : List Section) :
    (toDatum roots sections).Plain := by
  refine .record fun field hfield => ?_
  rcases List.mem_pair.mp hfield with rfl | rfl
  · exact Datum.plain_list_map .text roots
  · exact Datum.plain_list_map Section.plain_toDatum sections

/-- The report is an object of two members, which are the roots and the sections it was made of. -/
theorem parse_render (roots : List String) (sections : List Section) :
    ∃ rootData sectionData,
      Json.parse? (render roots sections) =
        some (.record [("roots", rootData), ("sections", sectionData)]) ∧
      listOf? text? rootData = some roots ∧
      listOf? (Section.ofDatum? .json) sectionData = some sections :=
  ⟨_, _, Json.parse?_pretty (plain_toDatum roots sections),
    listOf?_map text? .text (fun _ => rfl) roots,
    listOf?_map _ _ (Section.ofDatum?_toDatum .json) sections⟩

end JsonReport

end LicenseNotice
