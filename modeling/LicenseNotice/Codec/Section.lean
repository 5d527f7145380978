import LicenseNotice.Codec.Dialect
import LicenseNotice.Resolution
import LicenseNotice.Section

/-! # Resolutions and sections as data -/

namespace LicenseNotice

set_option autoImplicit false

open Codec

namespace NoticeKey

def toDatum (key : NoticeKey) : Datum :=
  .ofFields [("category", some (.text key.category.name)), ("text", optionalText key.text)]

def ofDatum? (dialect : Dialect) (d : Datum) : Option NoticeKey := do
  let fields ← Fields.of? dialect ["category", "text"] false d
  let category ← fields.required "category" (choice? dialect Category.ofName?)
  let text ← fields.placed "text" text?
  return { category, text }

theorem ofDatum?_toDatum (dialect : Dialect) (key : NoticeKey) :
    ofDatum? dialect key.toDatum = some key := by
  obtain ⟨category, text⟩ := key
  have hcategory : choice? dialect Category.ofName? (.text category.name) = some category :=
    Category.ofName?_name category
  cases text <;>
    simp [ofDatum?, toDatum, Datum.ofFields, optionalText, Fields.of?, Fields.required,
      Fields.placed, Fields.optional, Fields.orElse, Fields.get?, Fields.nullable, List.lookup_cons,
      hcategory, text?]

end NoticeKey

namespace Resolution

def toDatum (r : Resolution) : Datum :=
  .record [("notice", r.notice.toDatum), ("library", .text r.library),
    ("install_path", .text r.installPath), ("shipped", .text r.shipped),
    ("origin", .text r.origin)]

def ofDatum? (dialect : Dialect) (d : Datum) : Option Resolution := do
  let names := ["notice", "library", "install_path", "shipped", "origin"]
  let fields ← Fields.of? dialect names false d
  let notice ← fields.required "notice" (NoticeKey.ofDatum? dialect)
  let library ← fields.required "library" text?
  let installPath ← fields.required "install_path" text?
  let shipped ← fields.required "shipped" text?
  let origin ← fields.required "origin" text?
  return { notice, library, installPath, shipped, origin }

end Resolution

namespace LibraryBlock

def toDatum (block : LibraryBlock) : Datum :=
  .record [("library", .text block.library), ("installs", .list (block.installs.map .text))]

def ofDatum? (dialect : Dialect) (d : Datum) : Option LibraryBlock := do
  let fields ← Fields.of? dialect ["library", "installs"] false d
  let library ← fields.required "library" text?
  let installs ← fields.required "installs" (listOf? text?)
  return { library, installs }

theorem ofDatum?_toDatum (dialect : Dialect) (block : LibraryBlock) :
    ofDatum? dialect block.toDatum = some block := by
  have hinstalls := listOf?_map text? .text (fun _ => rfl) block.installs
  simp [ofDatum?, toDatum, Fields.of?, Fields.required, Fields.get?, List.lookup_cons, hinstalls, text?]

end LibraryBlock

namespace Section

def toDatum (s : Section) : Datum :=
  .record [("notice", s.notice.toDatum), ("blocks", .list (s.blocks.map (·.toDatum)))]

def ofDatum? (dialect : Dialect) (d : Datum) : Option Section := do
  let fields ← Fields.of? dialect ["notice", "blocks"] false d
  let notice ← fields.required "notice" (NoticeKey.ofDatum? dialect)
  let blocks ← fields.required "blocks" (listOf? (LibraryBlock.ofDatum? dialect))
  return { notice, blocks }

theorem ofDatum?_toDatum (dialect : Dialect) (s : Section) :
    ofDatum? dialect s.toDatum = some s := by
  have hblocks := listOf?_map _ _ (LibraryBlock.ofDatum?_toDatum dialect) s.blocks
  simp [ofDatum?, toDatum, Fields.of?, Fields.required, Fields.get?, List.lookup_cons,
    NoticeKey.ofDatum?_toDatum, hblocks]

end Section

end LicenseNotice
