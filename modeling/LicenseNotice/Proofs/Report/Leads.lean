import LicenseNotice.Proofs.Text.Trimming
import LicenseNotice.Report.Text

/-! # Leading parts of written paths

A lead is taken off a path together with the slashes behind it, if that leaves anything. Nothing
else in a report depends on the leads: it is the report, without any, of the sections whose paths
were changed beforehand. A lead is a text, so it may end inside a name of the path, and then the
name that is written first is cut.
-/

namespace LicenseNotice

set_option autoImplicit false

def Section.mapInstalls (change : String → String) (s : Section) : Section :=
  { s with blocks := s.blocks.map fun block =>
      { block with installs := block.installs.map change } }

theorem Section.mapInstalls_congr {change change' : String → String} {s : Section}
    (h : ∀ block ∈ s.blocks, ∀ path ∈ block.installs, change path = change' path) :
    s.mapInstalls change = s.mapInstalls change' := by
  have hblocks : ∀ block ∈ s.blocks,
      ({ block with installs := block.installs.map change } : LibraryBlock) =
        { block with installs := block.installs.map change' } := fun block hblock =>
    congrArg (LibraryBlock.mk block.library) (List.map_congr_left (h block hblock))
  rw [mapInstalls, mapInstalls, List.map_congr_left hblocks]

theorem Section.mapInstalls_id (s : Section) : s.mapInstalls id = s := by
  simp [mapInstalls]

namespace TextReport

/-- What is left when a lead is taken off: the path is the lead, slashes, and what is left, which
is not empty and does not begin with one more slash. -/
structure Leaves (lead path rest : String) : Prop where
  lead_ne_empty : lead ≠ ""
  rest_ne_empty : rest ≠ ""
  begins : rest.toList.head? ≠ some '/'
  split : ∃ slashes : List Char, (∀ c ∈ slashes, c = '/') ∧
    path.toList = lead.toList ++ slashes ++ rest.toList

/-- What stands right before `rest`, at the end of the path, is a slash. -/
def BehindSlash (rest path : String) : Prop :=
  ∃ front : List Char, path.toList = front ++ '/' :: rest.toList

/-- Where the lead ends, a name of the path ends: the lead has a slash at its end, or the path goes
on behind it with one. -/
def EndsName (lead path : String) : Prop :=
  lead.toList.getLast? = some '/' ∨ lead.toList ++ ['/'] <+: path.toList

variable {leads : List String} {lead path rest : String}

theorem below?_eq_some_iff : below? lead path = some rest ↔ Leaves lead path rest := by
  constructor
  · intro h
    rw [below?] at h
    split at h
    case isTrue => cases h
    case isFalse hlead =>
      obtain ⟨behind, hbehind, h⟩ := Option.bind_eq_some_iff.mp h
      rw [List.isPrefixOf?_eq_some_iff_append_eq] at hbehind
      split at h
      case h_1 => cases h
      case h_2 hne =>
        obtain rfl := Option.some.inj h
        have hbegins : (behind.dropWhile Text.isSlash).head? ≠ some '/' :=
          fun hhead => Text.not_of_head?_dropWhile hhead rfl
        obtain ⟨count, hcount⟩ := (Text.dropWhile_isSlash_eq_iff hbegins).mp rfl
        refine ⟨by simpa using hlead, by simpa using hne, ?_, List.replicate count '/',
          fun c hc => List.eq_of_mem_replicate hc, ?_⟩
        · rwa [String.toList_ofList]
        · rw [String.toList_ofList, List.append_assoc, ← hcount, hbehind]
  · rintro ⟨hlead, hrest, hbegins, slashes, hslashes, hpath⟩
    have hbehind : lead.toList.isPrefixOf? path.toList = some (slashes ++ rest.toList) := by
      rw [List.isPrefixOf?_eq_some_iff_append_eq, hpath, List.append_assoc]
    have hdrop : (slashes ++ rest.toList).dropWhile Text.isSlash = rest.toList := by
      rw [Text.dropWhile_isSlash_eq_iff hbegins, List.eq_replicate_of_mem hslashes]
      exact ⟨slashes.length, rfl⟩
    have hne : rest.toList ≠ [] := by simpa using hrest
    rw [below?, if_neg (by simpa using hlead), hbehind]
    simp only [Option.bind_eq_bind, Option.bind_some, hdrop]
    rw [String.ofList_toList]

theorem below?_eq_none_iff : below? lead path = none ↔ ∀ rest, ¬ Leaves lead path rest := by
  rw [Option.eq_none_iff_forall_ne_some]
  exact forall_congr' fun rest => not_congr below?_eq_some_iff

namespace Leaves

theorem isSuffix (h : Leaves lead path rest) : rest.toList <:+ path.toList := by
  obtain ⟨slashes, -, hsplit⟩ := h.split
  exact ⟨lead.toList ++ slashes, hsplit.symm⟩

theorem ne_path (h : Leaves lead path rest) : rest ≠ path := by
  rintro rfl
  obtain ⟨slashes, -, hsplit⟩ := h.split
  have hfront : lead.toList ++ slashes = [] := List.self_eq_append_left.mp hsplit
  have hlead : lead.toList = [] := (List.append_eq_nil_iff.mp hfront).1
  exact h.lead_ne_empty (String.toList_eq_nil_iff.mp hlead)

theorem behindSlash_iff (h : Leaves lead path rest) : BehindSlash rest path ↔ EndsName lead path := by
  obtain ⟨slashes, hslashes, hsplit⟩ := h.split
  have hbehind : BehindSlash rest path ↔ (lead.toList ++ slashes).getLast? = some '/' := by
    rw [List.getLast?_eq_some_iff, BehindSlash, hsplit]
    refine exists_congr fun front => ?_
    rw [List.append_cons front, List.append_left_inj]
  rw [hbehind, EndsName, List.getLast?_append]
  cases slashes with
  | nil =>
    -- Nothing stands between the lead and the rest, which does not begin with a slash.
    have hgoesOn : ¬ lead.toList ++ ['/'] <+: path.toList := by
      rintro ⟨more, hmore⟩
      rw [hsplit, List.append_nil, List.append_assoc, List.append_right_inj] at hmore
      exact h.begins (by rw [← hmore]; rfl)
    rw [or_iff_left hgoesOn]
    rfl
  | cons c more =>
    obtain rfl := hslashes c List.mem_cons_self
    have hlast : ('/' :: more).getLast? = some '/' := by
      rw [List.getLast?_eq_some_getLast (List.cons_ne_nil _ _)]
      exact congrArg some (hslashes _ (List.getLast_mem _))
    have hgoesOn : lead.toList ++ ['/'] <+: path.toList :=
      ⟨more ++ rest.toList, by rw [hsplit]; simp⟩
    rw [hlast]
    exact iff_of_true rfl (.inr hgoesOn)

end Leaves

theorem strip_eq_self (h : ∀ lead ∈ leads, ∀ rest, ¬ Leaves lead path rest) :
    strip leads path = path := by
  have hnone : leads.findSome? (below? · path) = none :=
    List.findSome?_eq_none_iff.mpr fun lead hlead => below?_eq_none_iff.mpr (h lead hlead)
  rw [strip, hnone, Option.getD_none]

/-- What is written where some lead leaves anything is what the first such lead leaves. -/
theorem exists_leaves_strip (h : ∃ lead ∈ leads, ∃ rest, Leaves lead path rest) :
    ∃ before lead after, leads = before ++ lead :: after ∧
      (∀ earlier ∈ before, ∀ rest, ¬ Leaves earlier path rest) ∧
      Leaves lead path (strip leads path) := by
  obtain ⟨lead, hlead, rest, hrest⟩ := h
  cases hfound : leads.findSome? (below? · path) with
  | none =>
    have hnone := List.findSome?_eq_none_iff.mp hfound lead hlead
    exact absurd hrest (below?_eq_none_iff.mp hnone rest)
  | some shown =>
    obtain ⟨before, first, after, hleads, hshown, hbefore⟩ := List.findSome?_eq_some_iff.mp hfound
    refine ⟨before, first, after, hleads, fun earlier hearlier => ?_, ?_⟩
    · exact below?_eq_none_iff.mp (hbefore earlier hearlier)
    · rw [strip, hfound, Option.getD_some]
      exact below?_eq_some_iff.mp hshown

theorem strip_singleton (lead path : String) :
    strip [lead] path = (below? lead path).getD path := by
  rw [strip, List.findSome?_singleton]

theorem blockText_eq (leads : List String) (block : LibraryBlock) : blockText leads block =
    blockText [] { block with installs := block.installs.map (strip leads) } := by
  rw [blockText, blockText, List.map_map]
  rfl

theorem sectionText_eq (leads : List String) (texts : LicenseTexts) (s : Section) :
    sectionText leads texts s = sectionText [] texts (s.mapInstalls (strip leads)) := by
  have hblocks : s.blocks.map (blockText leads) =
      (s.mapInstalls (strip leads)).blocks.map (blockText []) := by
    rw [Section.mapInstalls, List.map_map]
    exact List.map_congr_left fun block _ => blockText_eq leads block
  rw [sectionText, hblocks]
  rfl

/-- Leads change install paths and nothing else. -/
theorem render_eq (title : Option String) (leads : List String) (texts : LicenseTexts)
    (ss : List Section) : render ⟨title, leads⟩ texts ss =
      render ⟨title, []⟩ texts (ss.map (·.mapInstalls (strip leads))) := by
  rw [render, render, List.map_map]
  exact congrArg (fun written => titleText title ++ String.join written)
    (List.map_congr_left fun s _ => sectionText_eq leads texts s)

/-- A report writes each install path as it is or, where some lead leaves anything of it, as what
the first such lead leaves: a proper part from the end of the path, not empty and without a slash
in front. It begins with a whole name of the path exactly if that lead ends where a name ends. -/
theorem render_shows (title : Option String) (leads : List String) (texts : LicenseTexts)
    (ss : List Section) :
    render ⟨title, leads⟩ texts ss =
      render ⟨title, []⟩ texts (ss.map (·.mapInstalls (strip leads))) ∧
    ∀ path, (strip leads path = path ∧ ∀ lead ∈ leads, ∀ rest, ¬ Leaves lead path rest) ∨
      ∃ before lead after, leads = before ++ lead :: after ∧
        (∀ earlier ∈ before, ∀ rest, ¬ Leaves earlier path rest) ∧
        Leaves lead path (strip leads path) ∧
        (strip leads path).toList <:+ path.toList ∧ strip leads path ≠ path ∧
        (BehindSlash (strip leads path) path ↔ EndsName lead path) := by
  refine ⟨render_eq title leads texts ss, fun path => ?_⟩
  by_cases h : ∃ lead ∈ leads, ∃ rest, Leaves lead path rest
  · obtain ⟨before, lead, after, hleads, hbefore, hleaves⟩ := exists_leaves_strip h
    exact .inr ⟨before, lead, after, hleads, hbefore, hleaves, hleaves.isSuffix, hleaves.ne_path,
      hleaves.behindSlash_iff⟩
  · have hnone : ∀ lead ∈ leads, ∀ rest, ¬ Leaves lead path rest := fun lead hlead rest hrest =>
      h ⟨lead, hlead, rest, hrest⟩
    exact .inl ⟨strip_eq_self hnone, hnone⟩

/-- A lead that is a whole directory takes a name that merely begins like it apart. -/
theorem strip_cuts_name :
    strip ["out/system"] "out/system/bin/app" = "bin/app" ∧
    strip ["out/system"] "out/system_ext/bin/app" = "_ext/bin/app" ∧
    ¬ BehindSlash "_ext/bin/app" "out/system_ext/bin/app" := by
  have hcut : strip ["out/system"] "out/system_ext/bin/app" = "_ext/bin/app" := by decide
  have hleaves : Leaves "out/system" "out/system_ext/bin/app" "_ext/bin/app" :=
    below?_eq_some_iff.mp (by decide)
  refine ⟨by decide, hcut, fun h => ?_⟩
  rw [hleaves.behindSlash_iff, EndsName] at h
  revert h
  decide

end TextReport

end LicenseNotice
