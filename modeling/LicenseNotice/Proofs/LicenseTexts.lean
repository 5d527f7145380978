import Mathlib.Data.Finset.Card
import LicenseNotice.LibraryName
import LicenseNotice.Proofs.FileSystem.Watch
import LicenseNotice.Proofs.Location

/-! # What loading license texts reads

Each text key of the sections is read once, at the place it has in the text root. Loading succeeds
if all of them can be read, and the table then holds what stands in the files. A key that begins
with a slash has no place in the text root: it is read as it stands, although the name of a library
is derived from it as if the slash were not there.
-/

namespace LicenseNotice.LicenseTexts

set_option autoImplicit false

open FileSystem (load_bind load_readFile load_mapM watch_bind watch_readFile watch_mapM)
open Location (isAbsolute LiesBelow)

variable {fs : FileSystem} {warnings later : List Warning} {root key : String}
  {sections : List Section} {texts : LicenseTexts}

theorem mem_keysOf : key ∈ keysOf sections ↔ ∃ s ∈ sections, s.notice.text = some key := by
  rw [keysOf, Grouping.sortNames, mem_sortBy, mem_distinct, List.mem_filterMap]

theorem nodup_keysOf (sections : List Section) : (keysOf sections).Nodup :=
  (sortBy_perm compare _).nodup_iff.mpr (nodup_distinct _)

theorem length_keysOf (sections : List Section) :
    (keysOf sections).length = (sections.filterMap (·.notice.text)).toFinset.card := by
  have hkeys : (keysOf sections).toFinset = (sections.filterMap (·.notice.text)).toFinset := by
    ext key
    rw [List.mem_toFinset, List.mem_toFinset, mem_keysOf, List.mem_filterMap]
  rw [← hkeys, List.toFinset_card_of_nodup (nodup_keysOf sections)]

/-- What the file of a key puts into the table. -/
def entry (fs : FileSystem) (root key : String) : Except Failure (String × String) :=
  let path := Location.join root key
  ((fs.read path).mapError (.textUnreadable path)).map (key, ·)

theorem entry_eq_ok {item : String × String} : entry fs root key = .ok item ↔
    ∃ content, fs.read (Location.join root key) = .ok content ∧ (key, content) = item := by
  rw [entry, Refusal.map_eq_ok]
  cases fs.read (Location.join root key) <;> simp [Except.mapError]

/-- One step of loading: the text of a key, with the key. -/
def readEntry {m : Type → Type} [Monad m] [FileReader m] (root key : String) :
    Loading m (String × String) := do
  let path := Location.join root key
  let text ← Loading.readFile path (.textUnreadable path)
  return (key, text)

theorem load_eq {m : Type → Type} [Monad m] [FileReader m] (root : String)
    (sections : List Section) : (load root sections : Loading m LicenseTexts) = do
      let entries ← (keysOf sections).mapM (readEntry root)
      return ofList entries :=
  rfl

theorem load_readEntry : fs.load warnings (readEntry root key) = (entry fs root key, warnings) := by
  rw [readEntry, load_bind, load_readFile, entry]
  cases fs.read (Location.join root key) <;> rfl

theorem watch_readEntry (before : List String) : fs.watch warnings before (readEntry root key) =
    ((entry fs root key, warnings), before ++ [Location.join root key]) := by
  rw [readEntry, watch_bind, watch_readFile, entry]
  cases fs.read (Location.join root key) <;> rfl

theorem load_load : fs.load warnings (load root sections) =
    (((keysOf sections).mapM (entry fs root)).map ofList, warnings) := by
  rw [load_eq, load_bind, load_mapM fun _ => load_readEntry]
  cases (keysOf sections).mapM (entry fs root) <;> rfl

/-- Loading asks for the keys' paths in order, for all of them if it succeeds. -/
theorem watch_load (fs : FileSystem) (warnings : List Warning) (root : String)
    (sections : List Section) : ∃ asked, asked <+: (keysOf sections).map (Location.join root) ∧
    ((∃ entries, (keysOf sections).mapM (entry fs root) = .ok entries) →
      asked = (keysOf sections).map (Location.join root)) ∧
    fs.watch warnings [] (load root sections) = (fs.load warnings (load root sections), asked) := by
  obtain ⟨asked, hasked, hall, hwatch⟩ :=
    watch_mapM (fun _ => watch_readEntry) []
  refine ⟨asked, hasked, hall, ?_⟩
  rw [load_load, load_eq, watch_bind, hwatch]
  cases (keysOf sections).mapM (entry fs root) <;> rfl

theorem load_eq_ok : fs.load warnings (load root sections) = (.ok texts, later) ↔
    later = warnings ∧ ∃ entries, (keysOf sections).mapM (entry fs root) = .ok entries ∧
      ofList entries = texts := by
  rw [load_load, Prod.mk.injEq, Refusal.map_eq_ok]
  exact and_comm.trans (and_congr_left' eq_comm)

theorem exists_load_iff : (∃ texts, fs.load warnings (load root sections) = (.ok texts, warnings)) ↔
    ∀ s ∈ sections, ∀ key, s.notice.text = some key →
      ∃ content, fs.read (Location.join root key) = .ok content := by
  have hentries : (∃ entries, (keysOf sections).mapM (entry fs root) = .ok entries) ↔
      ∀ key ∈ keysOf sections, ∃ content, fs.read (Location.join root key) = .ok content := by
    rw [Refusal.exists_mapM_eq_ok]
    refine forall₂_congr fun key _ => ?_
    simp only [entry_eq_ok]
    exact ⟨fun ⟨_, content, hread, _⟩ => ⟨content, hread⟩,
      fun ⟨content, hread⟩ => ⟨_, content, hread, rfl⟩⟩
  simp only [load_eq_ok, true_and]
  rw [exists_comm]
  simp only [exists_and_left, exists_eq', and_true]
  rw [hentries]
  simp only [mem_keysOf]
  exact ⟨fun h s hs key hkey => h key ⟨s, hs, hkey⟩, fun h key ⟨s, hs, hkey⟩ => h s hs key hkey⟩

/-- The entries that were read are the table, one for each key, with what stands in its file. -/
theorem entries_of_load (h : fs.load warnings (load root sections) = (.ok texts, later)) :
    Keyed.keys texts.entries = keysOf sections ∧ ∀ key content, (key, content) ∈ texts.entries →
      fs.read (Location.join root key) = .ok content := by
  obtain ⟨-, entries, hentries, rfl⟩ := load_eq_ok.mp h
  have hkeys : Keyed.keys entries = keysOf sections := by
    have hsame : List.Forall₂ (fun key item => key = item.1) (keysOf sections) entries :=
      (Refusal.mapM_eq_ok.mp hentries).imp fun key item hitem => by
        obtain ⟨_, -, rfl⟩ := entry_eq_ok.mp hitem
        rfl
    rw [← List.forall₂_map_right_iff, List.forall₂_eq_eq_eq] at hsame
    exact hsame.symm
  -- No key is there twice, so no entry takes the place of another.
  have hunique : (Keyed.keys entries).Nodup := hkeys ▸ nodup_keysOf sections
  rw [ofList, Keyed.ofList_of_nodup hunique]
  refine ⟨hkeys, fun key content hmem => ?_⟩
  obtain ⟨key', -, hentry⟩ := (Refusal.mem_of_mapM_eq_ok hentries _).mp hmem
  obtain ⟨content', hread, hsame⟩ := entry_eq_ok.mp hentry
  cases hsame
  exact hread

/-- Loading asks for the files of the sections' keys and for no others, and for all of them if it
succeeds. The file of a key that does not begin with a slash lies below the text root; a key that
does is itself the path of its file, wherever the text root is. -/
theorem load_asks (fs : FileSystem) (warnings : List Warning) (root : String)
    (sections : List Section) : ∃ asked,
    fs.watch warnings [] (load root sections) = (fs.load warnings (load root sections), asked) ∧
    (∀ path ∈ asked, ∃ s ∈ sections, ∃ key,
      s.notice.text = some key ∧ path = Location.join root key) ∧
    (∀ texts, fs.load warnings (load root sections) = (.ok texts, warnings) →
      ∀ s ∈ sections, ∀ key, s.notice.text = some key → Location.join root key ∈ asked) ∧
    ∀ key, if isAbsolute key then Location.join root key = key
      else LiesBelow root key (Location.join root key) := by
  obtain ⟨asked, hasked, hall, hwatch⟩ := watch_load fs warnings root sections
  refine ⟨asked, hwatch, fun path hpath => ?_, fun texts htexts s hs key hkey => ?_, fun key => ?_⟩
  · obtain ⟨key, hmem, rfl⟩ := List.mem_map.mp (hasked.subset hpath)
    obtain ⟨s, hs, hkey⟩ := mem_keysOf.mp hmem
    exact ⟨s, hs, key, hkey, rfl⟩
  · obtain ⟨-, entries, hentries, -⟩ := load_eq_ok.mp htexts
    rw [hall ⟨entries, hentries⟩]
    exact List.mem_map_of_mem (mem_keysOf.mpr ⟨s, hs, hkey⟩)
  · split
    case isTrue habsolute => exact Location.join_of_isAbsolute habsolute root
    case isFalse hrelative => exact Location.liesBelow_join hrelative root

/-- A build directory with the license text of a library in its text root. -/
def zlibDirectory : FileSystem :=
  (FileSystem.empty ["build"]).addFile ["build", "texts", "external", "zlib", "NOTICE"]
    (some "Copyright zlib authors\n")

/-- A slash in front of a key changes nothing for the name of the library, and its text is missed. -/
theorem load_leaves_root :
    LibraryName.projectOfText? "/external/zlib/NOTICE" = some "zlib" ∧
    zlibDirectory.read "texts/external/zlib/NOTICE" = .ok "Copyright zlib authors\n" ∧
    zlibDirectory.watch [] [] (load "texts" [⟨⟨.notice, some "/external/zlib/NOTICE"⟩, []⟩]) =
      ((.error (.textUnreadable "/external/zlib/NOTICE" .notFound), []),
        ["/external/zlib/NOTICE"]) ∧
    ¬ LiesBelow "texts" "/external/zlib/NOTICE" "/external/zlib/NOTICE" := by
  refine ⟨by decide, by decide +kernel, by decide +kernel, fun h => ?_⟩
  exact absurd h.begins (by decide)

end LicenseNotice.LicenseTexts
