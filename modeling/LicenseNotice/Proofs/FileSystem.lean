import LicenseNotice.FileSystem
import LicenseNotice.Proofs.Refusal

/-! # What a write changes

A write puts its text where the path leads and touches nothing else. Directories stay directories,
so every path that led elsewhere still leads there, and the only new place that paths lead to is the
written one.
-/

namespace LicenseNotice.FileSystem

set_option autoImplicit false

variable {fs later : FileSystem} {place origin next target : List String} {piece path text : String}
  {pieces rest : List String}

def IsName (piece : String) : Prop :=
  piece ≠ "" ∧ piece ≠ "." ∧ piece ≠ ".." ∧ piece.utf8ByteSize ≤ longestName

/-- One piece of a path leads from `place` to `next`. -/
def Leads (fs : FileSystem) (place : List String) (piece : String) (next : List String) : Prop :=
  fs.isDirectory place ∧
    (((piece = "" ∨ piece = ".") ∧ next = place) ∨ (piece = ".." ∧ next = place.dropLast) ∨
      (IsName piece ∧ (fs.entry? (place ++ [piece])).isSome ∧ next = place ++ [piece]))

theorem follow_nil_eq_ok : fs.follow origin [] = .ok target ↔ target = origin := by
  rw [follow, Except.ok.injEq]
  exact eq_comm

theorem follow_cons_eq_ok : fs.follow origin (piece :: rest) = .ok target ↔
    ∃ next, fs.Leads origin piece next ∧ fs.follow next rest = .ok target := by
  simp only [follow, Leads, isDirectory]
  match fs.entry? origin with
  | none => simp
  | some (.file _) => simp [Entry.isDirectory]
  | some (.unreadable _) => simp [Entry.isDirectory]
  | some (.directory _) =>
    simp only [Option.any_some, Entry.isDirectory, true_and]
    by_cases hstays : piece = "" ∨ piece = "."
    · rcases hstays with rfl | rfl <;> simp [IsName]
    · obtain ⟨hempty, hdot⟩ := not_or.mp hstays
      by_cases hup : piece = ".."
      · simp [hup, IsName]
      · by_cases hlong : piece.utf8ByteSize > longestName
        · simp [hempty, hdot, hup, hlong, IsName, Nat.not_le.mpr hlong]
        · cases hbelow : fs.entry? (origin ++ [piece]) <;>
            simp [hempty, hdot, hup, hlong, IsName, Nat.not_lt.mp hlong]

theorem follow_append_eq_ok {more : List String} : fs.follow origin (pieces ++ more) = .ok target ↔
    ∃ next, fs.follow origin pieces = .ok next ∧ fs.follow next more = .ok target := by
  induction pieces generalizing origin with
  | nil => simp [follow_nil_eq_ok]
  | cons piece rest ih =>
    simp only [List.cons_append, follow_cons_eq_ok, ih]
    constructor
    · rintro ⟨middle, hleads, next, hrest, hmore⟩
      exact ⟨next, ⟨middle, hleads, hrest⟩, hmore⟩
    · rintro ⟨next, ⟨middle, hleads, hrest⟩, hmore⟩
      exact ⟨middle, hleads, next, hrest, hmore⟩

theorem follow_dot_eq_ok : fs.follow origin (pieces ++ ["."]) = .ok target ↔
    fs.follow origin pieces = .ok target ∧ fs.isDirectory target := by
  rw [follow_append_eq_ok]
  constructor
  · rintro ⟨place, hfollow, hdot⟩
    obtain ⟨next, ⟨hdirectory, hnext⟩, hlast⟩ := follow_cons_eq_ok.mp hdot
    obtain rfl : next = place := by simpa [IsName] using hnext
    obtain rfl := follow_nil_eq_ok.mp hlast
    exact ⟨hfollow, hdirectory⟩
  · rintro ⟨hfollow, hdirectory⟩
    exact ⟨target, hfollow, follow_cons_eq_ok.mpr ⟨target, ⟨hdirectory, by simp⟩, rfl⟩⟩

theorem read_eq_ok : fs.read path = .ok text ↔
    ∃ place, fs.locate path = .ok place ∧ fs.entry? place = some (.file text) := by
  refine Refusal.bind_eq_ok.trans (exists_congr fun place => and_congr_right fun _ => ?_)
  match fs.entry? place with
  | none => exact ⟨nofun, nofun⟩
  | some (.directory _) => exact ⟨nofun, nofun⟩
  | some (.unreadable _) => exact ⟨nofun, nofun⟩
  | some (.file _) => simp [pure, Except.pure]

/-- Nothing differs but what stands at `place`, where no directory is before or after. -/
structure DiffersAt (place : List String) (fs later : FileSystem) : Prop where
  workingDirectory : later.workingDirectory = fs.workingDirectory
  entries : ∀ other, other ≠ place → later.entry? other = fs.entry? other
  noDirectory : ¬ fs.isDirectory place
  noDirectoryLater : ¬ later.isDirectory place

namespace DiffersAt

theorem symm (h : DiffersAt place fs later) : DiffersAt place later fs where
  workingDirectory := h.workingDirectory.symm
  entries other hother := (h.entries other hother).symm
  noDirectory := h.noDirectoryLater
  noDirectoryLater := h.noDirectory

theorem isDirectory (h : DiffersAt place fs later) {other : List String} (hother : other ≠ place) :
    later.isDirectory other = fs.isDirectory other := by
  rw [FileSystem.isDirectory, FileSystem.isDirectory, h.entries other hother]

theorem leads (h : DiffersAt place fs later) (hnext : next = place → (later.entry? place).isSome)
    (hleads : fs.Leads origin piece next) : later.Leads origin piece next := by
  obtain ⟨hdirectory, hpiece⟩ := hleads
  have horigin : origin ≠ place := fun heq => h.noDirectory (heq ▸ hdirectory)
  refine ⟨(h.isDirectory horigin).trans hdirectory, hpiece.imp_right (.imp_right ?_)⟩
  rintro ⟨hname, hbelow, rfl⟩
  refine ⟨hname, ?_, rfl⟩
  by_cases heq : origin ++ [piece] = place
  · rw [heq]
    exact hnext heq
  · rwa [h.entries _ heq]

theorem follow (h : DiffersAt place fs later)
    (htarget : target = place → (later.entry? place).isSome)
    (hfollow : fs.follow origin pieces = .ok target) : later.follow origin pieces = .ok target := by
  induction pieces generalizing origin with
  | nil => exact hfollow
  | cons piece rest ih =>
    obtain ⟨next, hleads, hrest⟩ := follow_cons_eq_ok.mp hfollow
    -- A path that goes on from `next` needs a directory there, which `place` holds in neither.
    have hnext : next = place → (later.entry? place).isSome := by
      cases rest with
      | nil =>
        rw [← follow_nil_eq_ok.mp hrest]
        exact htarget
      | cons piece rest =>
        obtain ⟨_, ⟨hdirectory, _⟩, _⟩ := follow_cons_eq_ok.mp hrest
        exact fun heq => absurd (heq ▸ hdirectory) h.noDirectory
    exact follow_cons_eq_ok.mpr ⟨next, h.leads hnext hleads, ih hrest⟩

theorem start (h : DiffersAt place fs later) (path : String) : later.start path = fs.start path := by
  rw [FileSystem.start, FileSystem.start, h.workingDirectory]

theorem locate (h : DiffersAt place fs later)
    (htarget : target = place → (later.entry? place).isSome)
    (hlocate : fs.locate path = .ok target) : later.locate path = .ok target := by
  obtain ⟨_, hpath, hfollow⟩ := Refusal.bind_eq_ok.mp hlocate
  refine Refusal.bind_eq_ok.mpr ⟨(), hpath, ?_⟩
  rw [h.start]
  exact h.follow htarget hfollow

/-- Where something is at the place, every path that does not lead there reads as before. -/
theorem read (h : DiffersAt place fs later) (hplace : (later.entry? place).isSome)
    (hpath : later.locate path ≠ .ok place) :
    later.read path = .ok text ↔ fs.read path = .ok text := by
  rw [read_eq_ok, read_eq_ok]
  constructor
  · rintro ⟨other, hlocate, hfile⟩
    have hother : other ≠ place := fun heq => hpath (heq ▸ hlocate)
    exact ⟨other, h.symm.locate (absurd · hother) hlocate, (h.entries other hother) ▸ hfile⟩
  · rintro ⟨other, hlocate, hfile⟩
    have hlater := h.locate (fun _ => hplace) hlocate
    have hother : other ≠ place := fun heq => hpath (heq ▸ hlater)
    exact ⟨other, hlater, (h.entries other hother).trans hfile⟩

end DiffersAt

/-- The place written to is below the directory that the path leads to without its last name. -/
theorem place_of_writePlace (h : fs.writePlace path = .ok place) :
    checkPath path = .ok () ∧ ¬ fs.isDirectory place ∧
      ∃ front name directory, Location.pieces path = front ++ [name] ∧ IsName name ∧
        fs.follow (fs.start path) front = .ok directory ∧ fs.isDirectory directory ∧
        place = directory ++ [name] := by
  obtain ⟨_, hpath, h⟩ := Refusal.bind_eq_ok.mp h
  refine ⟨hpath, ?_⟩
  dsimp only at h
  split at h
  · cases h
  · rename_i name front hsplit
    obtain ⟨directory, hfollow, h⟩ := Refusal.bind_eq_ok.mp h
    obtain ⟨hproper, h⟩ := Refusal.guarded_eq_ok.mp h
    obtain ⟨hlong, h⟩ := Refusal.guarded_eq_ok.mp h
    obtain ⟨hfree, h⟩ := Refusal.guarded_eq_ok.mp h
    cases h
    obtain ⟨hfront, hdirectory⟩ := follow_dot_eq_ok.mp hfollow
    obtain ⟨htrailing, hdots⟩ := not_or.mp hproper
    obtain ⟨hdot, hup⟩ := not_or.mp hdots
    have hempty : name ≠ "" := by
      have hhead := List.head?_dropWhile_not (· = "") (Location.pieces path).reverse
      rw [hsplit] at hhead
      simpa using hhead
    have hpieces : (Location.pieces path).reverse = name :: front := calc
      _ = _ ++ _ := List.takeWhile_append_dropWhile.symm
      _ = [] ++ name :: front := by rw [List.isEmpty_iff.mp (not_not.mp htrailing), hsplit]
    refine ⟨hfree, front.reverse, name, directory, ?_, ?_, hfront, hdirectory, rfl⟩
    · rw [← List.reverse_cons, ← hpieces, List.reverse_reverse]
    · exact ⟨hempty, hdot, hup, Nat.not_lt.mp hlong⟩

theorem entry?_put (fs : FileSystem) (hplace : place ≠ []) (entry : Entry) (other : List String) :
    entry? (fs.put place entry) other = if place = other then some entry else fs.entry? other := by
  unfold entry? put
  rw [Keyed.get?_put]
  by_cases hother : other = []
  · simp [hother, hplace]
  · simp [hother]

theorem differsAt_put {entry : Entry} (hplace : place ≠ []) (hfree : ¬ fs.isDirectory place)
    (hentry : ¬ entry.isDirectory) : DiffersAt place fs (fs.put place entry) where
  workingDirectory := rfl
  entries other hother := (entry?_put fs hplace entry other).trans (if_neg hother.symm)
  noDirectory := hfree
  noDirectoryLater := by rwa [isDirectory, entry?_put fs hplace, if_pos rfl, Option.any_some]

/-- What is put at the place of a path is found by that path. -/
theorem locate_put {entry : Entry} (h : fs.writePlace path = .ok place)
    (hentry : ¬ entry.isDirectory) : (fs.put place entry).locate path = .ok place ∧
      entry? (fs.put place entry) place = some entry ∧ DiffersAt place fs (fs.put place entry) := by
  obtain ⟨hpath, hfree, front, name, directory, hpieces, hname, hfront, hdirectory, rfl⟩ :=
    place_of_writePlace h
  have hplace : directory ++ [name] ≠ [] := by simp
  have hdiffers := differsAt_put hplace hfree hentry
  have hput := (entry?_put fs hplace entry _).trans (if_pos rfl)
  generalize fs.put (directory ++ [name]) entry = later at hput hdiffers
  have habove : directory ≠ directory ++ [name] := by simp
  have hlast : later.Leads directory name (directory ++ [name]) :=
    ⟨(hdiffers.isDirectory habove).trans hdirectory,
      .inr (.inr ⟨hname, by rw [hput, Option.isSome_some], rfl⟩)⟩
  refine ⟨Refusal.bind_eq_ok.mpr ⟨(), hpath, ?_⟩, hput, hdiffers⟩
  rw [hdiffers.start, hpieces]
  exact follow_append_eq_ok.mpr ⟨directory, hdiffers.follow (absurd · habove) hfront,
    follow_cons_eq_ok.mpr ⟨_, hlast, rfl⟩⟩

/-- The file that a path leads to is the only one that differs, and no other path reads otherwise. -/
def ChangesOnly (path : String) (fs later : FileSystem) : Prop :=
  ∃ place, later.locate path = .ok place ∧ DiffersAt place fs later ∧
    ∀ other text, later.locate other ≠ .ok place →
      (later.read other = .ok text ↔ fs.read other = .ok text)

theorem changesOnly_put {entry : Entry} (h : fs.writePlace path = .ok place)
    (hentry : ¬ entry.isDirectory) : ChangesOnly path fs (fs.put place entry) := by
  obtain ⟨hlocate, hput, hdiffers⟩ := locate_put h hentry
  exact ⟨place, hlocate, hdiffers, fun _ _ => hdiffers.read (by rw [hput, Option.isSome_some])⟩

/-- All that a write can come to: it does not begin, it puts its text, or it stops at the limit. -/
theorem write_cases {result : Except FileFailure Unit} (h : fs.write path text = (result, later)) :
    (∃ cause, result = .error cause ∧ later = fs) ∨
    ∃ place, fs.writePlace path = .ok place ∧
      ((result = .ok () ∧ later = fs.put place (.file text)) ∨
        ∃ bytes cause, bytes < text.utf8ByteSize ∧ result = .error cause ∧
          later = fs.put place (cutOff bytes text)) := by
  rw [write] at h
  cases hplace : fs.writePlace path with
  | error cause =>
    rw [hplace] at h
    cases h
    exact .inl ⟨cause, rfl, rfl⟩
  | ok place =>
    rw [hplace] at h
    refine .inr ⟨place, rfl, ?_⟩
    cases hlimit : fs.limit.filter (·.bytes < text.utf8ByteSize) with
    | none =>
      rw [hlimit] at h
      cases h
      exact .inl ⟨rfl, rfl⟩
    | some limit =>
      rw [hlimit] at h
      cases h
      have hless : limit.bytes < text.utf8ByteSize := by
        simpa using (Option.filter_eq_some_iff.mp hlimit).2
      exact .inr ⟨limit.bytes, limit.cause, hless, rfl, rfl⟩

/-- A successful write puts its text where the path leads, and nothing else differs. -/
theorem write_spec (h : fs.write path text = (.ok (), later)) :
    later.read path = .ok text ∧ ChangesOnly path fs later := by
  obtain ⟨_, herror, -⟩ | ⟨place, hplace, ⟨-, rfl⟩ | ⟨_, _, -, herror, -⟩⟩ := write_cases h
  · cases herror
  · have hentry : ¬ (Entry.file text).isDirectory := Bool.false_ne_true
    obtain ⟨hlocate, hput, -⟩ := locate_put hplace hentry
    exact ⟨read_eq_ok.mpr ⟨place, hlocate, hput⟩, changesOnly_put hplace hentry⟩
  · cases herror

theorem prefix_of_firstBytes {bytes : Nat} {cs part : List Char}
    (h : firstBytes bytes cs = some part) : part <+: cs := by
  fun_induction firstBytes bytes cs generalizing part with
  | case1 | case2 =>
    cases h
    exact List.nil_prefix
  | case3 bytes c rest _ hfits ih =>
    obtain ⟨before, hbefore, rfl⟩ := Option.map_eq_some_iff.mp h
    exact List.cons_prefix_cons.mpr ⟨rfl, ih hbefore⟩
  | case4 => cases h

theorem cutOff_not_isDirectory (bytes : Nat) (text : String) : ¬ (cutOff bytes text).isDirectory := by
  rw [cutOff]
  split <;> simp [Entry.isDirectory]

theorem prefix_of_cutOff {bytes : Nat} {part : String} (h : cutOff bytes text = .file part) :
    part.toList <+: text.toList := by
  rw [cutOff] at h
  split at h
  · next hpart =>
    cases h
    rw [String.toList_ofList]
    exact prefix_of_firstBytes hpart
  · cases h

/-- A write that fails has not begun, or nothing differs but its file, where no more is to be read
than a beginning of the text. -/
theorem write_failed {cause : FileFailure} (h : fs.write path text = (.error cause, later)) :
    later = fs ∨ ChangesOnly path fs later ∧
      ∀ part, later.read path = .ok part → part.toList <+: text.toList := by
  obtain ⟨_, -, rfl⟩ | ⟨place, hplace, ⟨hok, -⟩ | ⟨bytes, _, -, -, rfl⟩⟩ := write_cases h
  · exact .inl rfl
  · cases hok
  · have hentry := cutOff_not_isDirectory bytes text
    refine .inr ⟨changesOnly_put hplace hentry, fun part hread => ?_⟩
    obtain ⟨hlocate, hput, -⟩ := locate_put hplace hentry
    obtain ⟨other, hother, hfile⟩ := read_eq_ok.mp hread
    obtain rfl : place = other := Except.ok.inj (hlocate.symm.trans hother)
    exact prefix_of_cutOff (Option.some.inj (hput.symm.trans hfile))

end LicenseNotice.FileSystem
