import LicenseNotice.Proofs.InstallPath.Normal
import LicenseNotice.Proofs.Report.Leads
import LicenseNotice.Proofs.Resolve.Stages
import LicenseNotice.Proofs.Section.Grouping

/-! # Paths from the output root

Every install path is the output root, the slashes around it aside, or leads on behind it. A report
with that text as its only lead shows what is below the output root. No path begins with a slash, so
an output root that begins with one is in no path as it is spelled, and as a lead it changes nothing.
-/

namespace LicenseNotice

set_option autoImplicit false

/-- The path is `dir`, or leads on behind it after one slash. -/
inductive LeadsFrom (dir : String) : String → Prop
  | here : LeadsFrom dir dir
  | below {more : String} : more ≠ "" → more.toList.head? ≠ some '/' →
      LeadsFrom dir (dir ++ "/" ++ more)

/-- What a path tells below `dir`; all of it where it does not lead there. -/
def seenFrom (dir path : String) : String :=
  ((List.isPrefixOf? (dir ++ "/").toList path.toList).map String.ofList).getD path

variable {dir lead path : String}

theorem seenFrom_below (dir more : String) : seenFrom dir (dir ++ "/" ++ more) = more := by
  have hmore : (dir ++ "/").toList.isPrefixOf? (dir ++ "/" ++ more).toList = some more.toList := by
    rw [List.isPrefixOf?_eq_some_iff_append_eq, ← String.toList_append]
  rw [seenFrom, hmore, Option.map_some, String.ofList_toList, Option.getD_some]

theorem seenFrom_here (dir : String) : seenFrom dir dir = dir := by
  have hnone : (dir ++ "/").toList.isPrefixOf? dir.toList = none := by
    rw [Option.eq_none_iff_forall_ne_some]
    intro more h
    have hlength := congrArg List.length (List.isPrefixOf?_eq_some_iff_append_eq.mp h)
    simp at hlength
  rw [seenFrom, hnone, Option.map_none, Option.getD_none]

namespace LeadsFrom

variable (hdir : dir ≠ "")

include hdir

theorem head?_eq (h : LeadsFrom dir path) : path.toList.head? = dir.toList.head? := by
  cases h with
  | here => rfl
  | below =>
    rw [String.append_assoc, String.toList_append,
      List.head?_append_of_ne_nil _ (by simpa using hdir)]

theorem strip_eq (h : LeadsFrom dir path) (hlead : lead = dir ∨ lead = dir ++ "/") :
    TextReport.strip [lead] path = seenFrom dir path := by
  rw [TextReport.strip_singleton]
  cases h with
  | here =>
    have hnone : TextReport.below? lead dir = none := by
      rw [Option.eq_none_iff_forall_ne_some]
      intro rest h
      obtain ⟨-, hrest, -, slashes, -, hsplit⟩ := TextReport.below?_eq_some_iff.mp h
      rcases hlead with rfl | rfl <;> simp [hrest] at hsplit
    rw [hnone, Option.getD_none, seenFrom_here]
  | @below more hmore hbegins =>
    have hsome : TextReport.below? lead (dir ++ "/" ++ more) = some more := by
      rw [TextReport.below?_eq_some_iff]
      rcases hlead with rfl | rfl
      · exact ⟨hdir, hmore, hbegins, ['/'], by simp, by simp⟩
      · exact ⟨by simp, hmore, hbegins, [], by simp, by simp⟩
    rw [hsome, Option.getD_some, seenFrom_below]

/-- A lead with a slash in front of the directory, or with more than one behind it, is not found. -/
theorem strip_around_eq {front back : List Char} (hbegins : dir.toList.head? ≠ some '/')
    (h : LeadsFrom dir path) (hlead : lead.toList = front ++ dir.toList ++ back)
    (hfront : ∀ c ∈ front, c = '/') (hback : ∀ c ∈ back, c = '/')
    (hne : ¬ (lead = dir ∨ lead = dir ++ "/")) : TextReport.strip [lead] path = path := by
  have hnone : TextReport.below? lead path = none := by
    rw [Option.eq_none_iff_forall_ne_some]
    intro rest hrest
    obtain ⟨-, -, -, slashes, -, hsplit⟩ := TextReport.below?_eq_some_iff.mp hrest
    rw [hlead] at hsplit
    -- A slash in front is where the path has none; one more behind is where the path goes on.
    cases front with
    | cons c front =>
      obtain rfl := hfront c List.mem_cons_self
      have hslash : path.toList.head? = some '/' := congrArg List.head? hsplit
      exact hbegins (h.head?_eq hdir ▸ hslash)
    | nil =>
      rw [not_or, ← String.toList_inj, ← String.toList_inj, hlead, List.nil_append] at hne
      match back, hback with
      | [], _ => simp at hne
      | [c], hback => simp [hback c List.mem_cons_self] at hne
      | c :: d :: back, hback =>
        obtain ⟨rfl, rfl, -⟩ : c = '/' ∧ d = '/' ∧ ∀ c ∈ back, c = '/' := by simpa using hback
        cases h with
        | here => simp at hsplit
        | @below more _ hmore =>
          have hmore' : more.toList = '/' :: (back ++ (slashes ++ rest.toList)) := by
            simpa using hsplit
          exact hmore (by rw [hmore', List.head?_cons])
  rw [TextReport.strip_singleton, hnone, Option.getD_none]

end LeadsFrom

namespace InstallPath

variable {outputRoot : String} (houtput : bare outputRoot ≠ "")

def withoutEnd (segment : String) : String :=
  String.ofList (Text.dropEnd Text.isSlash segment.toList)

include houtput

theorem leadsFrom_ofChain (chain : Chain) :
    LeadsFrom (bare outputRoot) (ofChain outputRoot chain) := by
  obtain ⟨more, hmore⟩ : ∃ more, ofChain outputRoot chain = join ([outputRoot] ++ more) := ⟨_, rfl⟩
  rw [hmore, join_append, join_singleton, if_neg houtput]
  split
  case isTrue => exact .here
  case isFalse hbelow => exact .below hbelow (begins_join more)

theorem leadsFrom_withoutEnd_iff {path : String} (h : LeadsFrom (bare outputRoot) path) :
    LeadsFrom (withoutEnd outputRoot) path ↔ outputRoot.toList.head? ≠ some '/' := by
  constructor
  · intro hpath hslash
    obtain ⟨back, hback⟩ := Text.dropEnd_prefix Text.isSlash outputRoot.toList
    have hne : withoutEnd outputRoot ≠ "" := by
      rw [withoutEnd, Ne, String.ofList_eq_empty_iff, Text.dropEnd_eq_nil_iff]
      rw [Ne, bare_eq_empty_iff] at houtput
      simpa [Text.isSlash] using houtput
    have hbegins : (withoutEnd outputRoot).toList.head? = some '/' := by
      rw [← hback, List.head?_append_of_ne_nil _ (by simpa [withoutEnd] using hne)] at hslash
      rw [withoutEnd, String.toList_ofList, hslash]
    have hhead := (hpath.head?_eq hne).symm.trans (h.head?_eq houtput)
    exact begins_bare outputRoot (hhead ▸ hbegins)
  · intro hslash
    have hkept : outputRoot.toList.dropWhile Text.isSlash = outputRoot.toList :=
      (Text.dropWhile_isSlash_eq_iff hslash).mpr ⟨0, rfl⟩
    have hbare : bare outputRoot = withoutEnd outputRoot := by
      rw [bare, withoutEnd, Text.trimSlashes, Text.trimBy, hkept]
    exact hbare ▸ h

theorem strip_outputRoot {path : String} (h : LeadsFrom (bare outputRoot) path) :
    TextReport.strip [outputRoot] path =
      if outputRoot = bare outputRoot ∨ outputRoot = bare outputRoot ++ "/" then
        seenFrom (bare outputRoot) path
      else path := by
  split
  case isTrue hlead => exact h.strip_eq houtput hlead
  case isFalse hlead =>
    obtain ⟨front, back, haround, hfront, hback⟩ :=
      Text.exists_around_trimBy Text.isSlash outputRoot.toList
    have hspelled : outputRoot.toList = front ++ (bare outputRoot).toList ++ back := by
      rw [bare, String.toList_ofList]
      exact haround
    exact h.strip_around_eq houtput (begins_bare outputRoot) hspelled
      (fun c hc => beq_iff_eq.mp (hfront c hc)) (fun c hc => beq_iff_eq.mp (hback c hc)) hlead

end InstallPath

namespace Graph

open InstallPath (bare withoutEnd)
open TextReport (render strip)

variable {g : Graph} {roots : List String} {set : ResolutionSet}

/-- A report under leads is a report without any, wherever the leads take a known part off the paths
of a set. -/
theorem render_sections_eq {leads : List String} {change : String → String}
    (h : ∀ r ∈ set.toList, strip leads r.installPath = change r.installPath)
    (title : Option String) (texts : LicenseTexts) : render ⟨title, leads⟩ texts set.sections =
      render ⟨title, []⟩ texts (set.sections.map (·.mapInstalls change)) := by
  have hsections : set.sections.map (·.mapInstalls (strip leads)) =
      set.sections.map (·.mapInstalls change) := by
    refine List.map_congr_left fun s hs => Section.mapInstalls_congr fun block hblock path hpath => ?_
    obtain ⟨r, hr, -, -, rfl⟩ := (ResolutionSet.reported_sections set s.notice block.library path).mp
      ⟨s, hs, rfl, block, hblock, rfl, hpath⟩
    exact h r hr
  rw [TextReport.render_eq, hsections]

/-- Every install path is the output root without the slashes around it, or leads on behind it, so it
begins with the output root as spelled, slashes at the end aside, unless that begins with a slash. A
report with that text as its only lead shows what is below the output root, as it does with the
output root as spelled if that has no slash in front and at most one at the end. -/
theorem resolve_leadsFrom_outputRoot (houtput : ∃ c ∈ g.outputRoot.toList, c ≠ '/')
    (hset : g.resolve roots = .ok set) :
    (∀ r ∈ set.toList, LeadsFrom (bare g.outputRoot) r.installPath ∧
      (LeadsFrom (withoutEnd g.outputRoot) r.installPath ↔ g.outputRoot.toList.head? ≠ some '/')) ∧
    ∀ title texts,
      render ⟨title, [bare g.outputRoot]⟩ texts set.sections =
        render ⟨title, []⟩ texts
          (set.sections.map (·.mapInstalls (seenFrom (bare g.outputRoot)))) ∧
      render ⟨title, [g.outputRoot]⟩ texts set.sections =
        render ⟨title, []⟩ texts
          (if g.outputRoot = bare g.outputRoot ∨ g.outputRoot = bare g.outputRoot ++ "/" then
            set.sections.map (·.mapInstalls (seenFrom (bare g.outputRoot)))
          else set.sections) := by
  have hne : bare g.outputRoot ≠ "" := fun hempty => by
    obtain ⟨c, hc, hslash⟩ := houtput
    exact hslash (InstallPath.bare_eq_empty_iff.mp hempty c hc)
  have hpaths : ∀ r ∈ set.toList, LeadsFrom (bare g.outputRoot) r.installPath := fun r hr => by
    obtain ⟨chain, attachment, rfl⟩ := exists_resolution_of_mem hset hr
    exact InstallPath.leadsFrom_ofChain hne chain
  refine ⟨fun r hr => ⟨hpaths r hr, InstallPath.leadsFrom_withoutEnd_iff hne (hpaths r hr)⟩,
    fun title texts => ⟨?_, ?_⟩⟩
  · exact render_sections_eq (fun r hr => (hpaths r hr).strip_eq hne (.inl rfl)) title texts
  · have hstrip := fun r hr => InstallPath.strip_outputRoot hne (hpaths r hr)
    split
    case isTrue hlead =>
      simp only [if_pos hlead] at hstrip
      exact render_sections_eq hstrip title texts
    case isFalse hlead =>
      have hkept : ∀ r ∈ set.toList, strip [g.outputRoot] r.installPath = id r.installPath :=
        fun r hr => (hstrip r hr).trans (if_neg hlead)
      rw [render_sections_eq hkept title texts, funext Section.mapInstalls_id, List.map_id']

section Image

/-- An image with an app in it, below some output root. -/
def imageAt (outputRoot : String) : Graph where
  outputRoot
  entries :=
    [("image", { id := "image", kind := .container, installName := "system.img"
                 deps := [⟨"app", .container, none⟩] }),
     ("app", { id := "app", installName := "bin/app", package := some "Acme"
               conditions := [⟨.notice, none, none⟩] })]

theorem resolve_leadsFrom_outputRoot_image : (∃ c ∈ "out/".toList, c ≠ '/') ∧
    ∃ set, (imageAt "out/").resolve ["image"] = .ok set ∧
      (∀ r ∈ set.toList, LeadsFrom "out" r.installPath) ∧
      render ⟨none, ["out/"]⟩ .empty set.sections = render ⟨none, []⟩ .empty
        [⟨⟨.notice, none⟩, [⟨"Acme", ["system.img/bin/app"]⟩]⟩] := by
  have houtput : ∃ c ∈ "out/".toList, c ≠ '/' := ⟨'o', by decide, by decide⟩
  have hset : (imageAt "out/").resolve ["image"] = .ok _ := rfl
  obtain ⟨hpaths, hreport⟩ := resolve_leadsFrom_outputRoot houtput hset
  exact ⟨houtput, _, hset, fun r hr => (hpaths r hr).1, (hreport none .empty).2⟩

/-- An output root with a slash in front is not in the path, and one with two slashes at its end is
not taken off it. -/
theorem outputRoot_kept :
    (∃ set, (imageAt "/out").resolve ["image"] = .ok set ∧
      set.toList.map (·.installPath) = ["out/system.img/bin/app"]) ∧
    (∃ set, (imageAt "out//").resolve ["image"] = .ok set ∧
      set.toList.map (·.installPath) = ["out/system.img/bin/app"]) ∧
    ¬ LeadsFrom (withoutEnd "/out") "out/system.img/bin/app" ∧
    strip ["/out"] "out/system.img/bin/app" = "out/system.img/bin/app" ∧
    strip ["out//"] "out/system.img/bin/app" = "out/system.img/bin/app" := by
  refine ⟨⟨_, rfl, by decide⟩, ⟨_, rfl, by decide⟩, fun h => ?_, by decide, by decide⟩
  exact absurd (h.head?_eq (by decide)) (by decide)

end Image

end Graph

end LicenseNotice
