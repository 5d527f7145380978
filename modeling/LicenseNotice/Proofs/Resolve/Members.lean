import LicenseNotice.Proofs.Manifest.Merge
import LicenseNotice.Proofs.Resolve.Locations

/-! # Members below their containers

A member is installed below its container, under its shipped name, as long as anything besides
slashes is in that name; its obligations are then kept apart from the container's own. A name made
of slashes alone adds nothing to a path, and the member is reported where the container is.
-/

namespace LicenseNotice.Graph

set_option autoImplicit false

open InstallPath (bare ofChain)

variable {g : Graph} {roots : List String} {chain : Chain} {step : Step} {set : ResolutionSet}
  {manifests : List (String × Manifest)}

theorem Descends.of_append {t : Target} {steps more : List Step}
    (h : g.Descends t (steps ++ more)) : g.Descends t steps := by
  induction steps generalizing t with
  | nil => trivial
  | cons step rest ih =>
    obtain ⟨hedge, hget, hrest⟩ := h
    exact ⟨hedge, hget, ih hrest⟩

theorem IsChain.of_extend (h : g.IsChain (chain.extend step)) : g.IsChain chain := by
  obtain ⟨hdescends, hids⟩ := h
  refine ⟨hdescends.of_append, hids.sublist (List.Sublist.map _ ?_)⟩
  rw [Chain.targets, Chain.targets, Chain.extend, List.map_append]
  exact List.Sublist.cons_cons _ (List.sublist_append_left _ _)

/-- In a graph merged from manifests, a member of a container on a walk is installed at the path of
the container exactly if its name is made of slashes alone. Any other name stands behind the
container's path, and no obligation of the member is taken for one of the container. -/
theorem member_below_container (hmerge : Manifest.merge? manifests = .ok g)
    (hset : g.resolve roots = .ok set) (hroot : ∃ key ∈ roots, g.get? key = some chain.root)
    (hchain : g.IsChain (chain.extend step)) :
    (ofChain g.outputRoot (chain.extend step) = ofChain g.outputRoot chain ↔
      ∀ c ∈ step.segment.toList, c = '/') ∧
    ((∃ c ∈ step.segment.toList, c ≠ '/') → bare step.segment ≠ "" ∧
      ofChain g.outputRoot (chain.extend step) =
        (if ofChain g.outputRoot chain = "" then bare step.segment
        else ofChain g.outputRoot chain ++ "/" ++ bare step.segment) ∧
      ∀ origin condition origin' condition',
        g.Contributes chain.last origin → condition ∈ origin.conditions →
        g.Contributes step.member origin' → condition' ∈ origin'.conditions →
        KeptApart set (g.resolution chain ⟨origin, condition⟩)
          (g.resolution (chain.extend step) ⟨origin', condition'⟩)) := by
  refine ⟨InstallPath.ofChain_extend_eq_iff.trans InstallPath.bare_eq_empty_iff, ?_⟩
  rintro ⟨c, hc, hslash⟩
  have hname : bare step.segment ≠ "" := fun hempty =>
    hslash (InstallPath.bare_eq_empty_iff.mp hempty c hc)
  refine ⟨hname, InstallPath.ofChain_extend hname, ?_⟩
  intro origin condition origin' condition' horigin hcondition horigin' hcondition'
  have hown : g.Obliges roots chain origin condition :=
    ⟨hroot, hchain.of_extend, horigin, hcondition⟩
  have hmember : g.Obliges roots (chain.extend step) origin' condition' :=
    ⟨hroot, hchain, (Chain.last_extend chain step).symm ▸ horigin', hcondition'⟩
  exact keptApart_of_obliges (keyedById_of_merge? hmerge) hset hown hmember
    fun hpath => hname (InstallPath.ofChain_extend_eq_iff.mp hpath.symm)

section Image

def libraryPart : Target :=
  { id := "lib", installName := "lib.so", package := some "Acme"
    conditions := [⟨.notice, none, none⟩] }

def appPart : Target :=
  { id := "app", installName := "/bin/app", package := some "Acme"
    conditions := [⟨.notice, none, none⟩] }

def imageWhole : Target :=
  { id := "image", kind := .container, installName := "system.img", package := some "Acme"
    conditions := [⟨.notice, none, none⟩]
    deps := [⟨"lib", .container, some ""⟩, ⟨"app", .container, none⟩] }

def rootWhole : Target :=
  { id := "root", kind := .container, installName := "/", deps := [⟨"lib", .container, none⟩] }

def wholesAndParts : List (String × Manifest) :=
  [("wholes.toml", ⟨some "/", [imageWhole, rootWhole]⟩),
   ("parts.toml", ⟨none, [libraryPart, appPart]⟩)]

/-- An image that holds a library under an empty name beside an app, and a directory without a path
of its own that holds the library. -/
def assembled : Graph where
  outputRoot := "/"
  entries := [("image", imageWhole), ("root", rootWhole), ("lib", libraryPart), ("app", appPart)]

def imageChain : Chain := ⟨imageWhole, []⟩

def rootChain : Chain := ⟨rootWhole, []⟩

def appStep : Step := ⟨⟨"app", .container, none⟩, appPart⟩

def namelessStep : Step := ⟨⟨"lib", .container, some ""⟩, libraryPart⟩

def libraryStep : Step := ⟨⟨"lib", .container, none⟩, libraryPart⟩

theorem member_below_container_app : Manifest.merge? wholesAndParts = .ok assembled ∧
    ∃ set, assembled.resolve ["image"] = .ok set ∧
      ofChain "/" (imageChain.extend appStep) = ofChain "/" imageChain ++ "/" ++ "bin/app" ∧
      KeptApart set (assembled.resolution imageChain ⟨imageWhole, ⟨.notice, none, none⟩⟩)
        (assembled.resolution (imageChain.extend appStep) ⟨appPart, ⟨.notice, none, none⟩⟩) := by
  have hmerge : Manifest.merge? wholesAndParts = .ok assembled := rfl
  have hchain : assembled.IsChain (imageChain.extend appStep) :=
    ⟨⟨by decide, rfl, trivial⟩, by decide⟩
  obtain ⟨set, hset⟩ : ∃ set, assembled.resolve ["image"] = .ok set := ⟨_, rfl⟩
  obtain ⟨-, hnamed⟩ := member_below_container hmerge hset ⟨"image", by decide, rfl⟩ hchain
  obtain ⟨-, hpath, hkept⟩ := hnamed ⟨'b', by decide, by decide⟩
  exact ⟨hmerge, set, hset, hpath, hkept _ _ _ _ (.refl _) (by decide) (.refl _) (by decide)⟩

/-- A member under an empty name has the path of its container, and the set has one entry for the
two. Where the container has no path, the path of a member is its name alone. -/
theorem member_at_container : Manifest.merge? wholesAndParts = .ok assembled ∧
    (assembled.get? "image" = some imageChain.root ∧
      assembled.IsChain (imageChain.extend namelessStep) ∧
      ofChain "/" (imageChain.extend namelessStep) = ofChain "/" imageChain ∧
      ofChain "/" imageChain = "system.img" ∧
      (assembled.resolution (imageChain.extend namelessStep)
          ⟨libraryPart, ⟨.notice, none, none⟩⟩).triple =
        (assembled.resolution imageChain ⟨imageWhole, ⟨.notice, none, none⟩⟩).triple) ∧
    (assembled.get? "root" = some rootChain.root ∧
      assembled.IsChain (rootChain.extend libraryStep) ∧
      ofChain "/" (rootChain.extend libraryStep) = "lib.so" ∧ ofChain "/" rootChain = "") ∧
    ∃ set, assembled.resolve ["image", "root"] = .ok set ∧
      set.toList.map (fun r => (r.shipped, r.installPath)) =
        [("image", "system.img"), ("app", "system.img/bin/app"), ("lib", "lib.so")] :=
  ⟨rfl, ⟨rfl, ⟨⟨by decide, rfl, trivial⟩, by decide⟩, by decide, by decide, by decide⟩,
    ⟨rfl, ⟨⟨by decide, rfl, trivial⟩, by decide⟩, by decide, by decide⟩, _, rfl, by decide⟩

end Image

end LicenseNotice.Graph
