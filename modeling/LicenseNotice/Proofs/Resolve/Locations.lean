import LicenseNotice.Proofs.InstallPath
import LicenseNotice.Proofs.Resolve.Obligations

/-! # Physical locations

An artifact ships once for each chain of containers that leads to it. The obligations of two
locations stay apart as long as their install paths differ, and for chains from one root these
differ exactly if the pieces of the shipped names do.
-/

namespace LicenseNotice.Graph

set_option autoImplicit false

open InstallPath (ofChain pieces IsPiece)

variable {g : Graph} {roots : List String} {chain chain' : Chain} {set : ResolutionSet}

/-- Both resolutions have an entry, and the two entries are for different paths. -/
def KeptApart (set : ResolutionSet) (r r' : Resolution) : Prop :=
  ∃ kept ∈ set.toList, ∃ kept' ∈ set.toList, kept.triple = r.triple ∧ kept'.triple = r'.triple ∧
    kept.installPath ≠ kept'.installPath

theorem keptApart_ofList {rs : List Resolution} {r r' : Resolution} (hr : r ∈ rs) (hr' : r' ∈ rs)
    (hpath : r.installPath ≠ r'.installPath) : KeptApart (.ofList rs) r r' := by
  obtain ⟨kept, hkept, htriple⟩ := ResolutionSet.exists_triple_of_mem hr
  obtain ⟨kept', hkept', htriple'⟩ := ResolutionSet.exists_triple_of_mem hr'
  refine ⟨kept, hkept, kept', hkept', htriple, htriple', fun heq => hpath ?_⟩
  calc r.installPath
    _ = kept.installPath := (congrArg Triple.installPath htriple).symm
    _ = kept'.installPath := heq
    _ = r'.installPath := congrArg Triple.installPath htriple'

theorem keptApart_of_obliges {origin origin' : Target} {condition condition' : Condition}
    (hg : g.KeyedById) (h : g.resolve roots = .ok set)
    (hobliges : g.Obliges roots chain origin condition)
    (hobliges' : g.Obliges roots chain' origin' condition')
    (hpath : ofChain g.outputRoot chain ≠ ofChain g.outputRoot chain') :
    KeptApart set (g.resolution chain ⟨origin, condition⟩)
      (g.resolution chain' ⟨origin', condition'⟩) := by
  obtain ⟨_, targets, shipped, table, walks, hroots, hshipped, htable, hwalks, rfl⟩ :=
    resolve_eq_ok.mp h
  exact keptApart_ofList
    ((mem_discovered hg hroots hshipped htable hwalks).mpr ⟨_, _, _, hobliges, rfl⟩)
    ((mem_discovered hg hroots hshipped htable hwalks).mpr ⟨_, _, _, hobliges', rfl⟩) hpath

/-- Two chains from one root have different install paths exactly if the pieces of their names
differ, as they do where different names are one piece each; and then no set of resolutions takes
an obligation at the one path for an obligation at the other. -/
theorem locations_differ_iff (g : Graph) (hroot : chain.root = chain'.root) :
    (ofChain g.outputRoot chain ≠ ofChain g.outputRoot chain' ↔
      pieces chain.names ≠ pieces chain'.names) ∧
    ((∀ name ∈ chain.names ++ chain'.names, IsPiece name) → chain.names ≠ chain'.names →
      pieces chain.names ≠ pieces chain'.names) ∧
    (pieces chain.names ≠ pieces chain'.names →
      (∀ (rs : List Resolution) (a a' : Attachment),
        g.resolution chain a ∈ rs → g.resolution chain' a' ∈ rs →
        KeptApart (.ofList rs) (g.resolution chain a) (g.resolution chain' a')) ∧
      (∀ roots set origin origin' condition condition',
        g.KeyedById → g.resolve roots = .ok set →
        g.Obliges roots chain origin condition → g.Obliges roots chain' origin' condition' →
        KeptApart set (g.resolution chain ⟨origin, condition⟩)
          (g.resolution chain' ⟨origin', condition'⟩))) := by
  have hpaths : ofChain g.outputRoot chain ≠ ofChain g.outputRoot chain' ↔
      pieces chain.names ≠ pieces chain'.names := not_congr (InstallPath.ofChain_eq_iff hroot)
  refine ⟨hpaths, fun hnames hne => ?_, fun hpieces => ⟨?_, ?_⟩⟩
  · rw [List.forall_mem_append] at hnames
    exact hpaths.mp (InstallPath.ofChain_ne_of_isPiece hroot hnames.1 hnames.2 hne)
  · intro rs a a' hr hr'
    exact keptApart_ofList hr hr' (hpaths.mpr hpieces)
  · intro roots set origin origin' condition condition' hg hset hobliges hobliges'
    exact keptApart_of_obliges hg hset hobliges hobliges' (hpaths.mpr hpieces)

section Image

def sharedLibrary : Target :=
  { id := "lib", installName := "lib.so", package := some "Lib"
    conditions := [⟨.notice, none, none⟩] }

def dataDirectory : Target :=
  { id := "data", kind := .container, installName := "data"
    deps := [⟨"lib", .container, none⟩, ⟨"lib", .container, some "/lib.so"⟩] }

def crowdedImage : Target :=
  { id := "image", kind := .container, installName := "system.img"
    deps := [⟨"data", .container, none⟩, ⟨"lib", .container, some "data/lib.so"⟩,
      ⟨"lib", .container, none⟩] }

/-- An image that holds a library four times, under three names of one path and at the top. -/
def crowded : Graph where
  outputRoot := "out"
  entries := [("image", crowdedImage), ("data", dataDirectory), ("lib", sharedLibrary)]

def nestedChain : Chain :=
  ⟨crowdedImage, [⟨⟨"data", .container, none⟩, dataDirectory⟩,
    ⟨⟨"lib", .container, none⟩, sharedLibrary⟩]⟩

def slashedChain : Chain :=
  ⟨crowdedImage, [⟨⟨"data", .container, none⟩, dataDirectory⟩,
    ⟨⟨"lib", .container, some "/lib.so"⟩, sharedLibrary⟩]⟩

def flatChain : Chain :=
  ⟨crowdedImage, [⟨⟨"lib", .container, some "data/lib.so"⟩, sharedLibrary⟩]⟩

def topChain : Chain := ⟨crowdedImage, [⟨⟨"lib", .container, none⟩, sharedLibrary⟩]⟩

theorem crowded_keyedById : crowded.KeyedById := ⟨by decide, by decide⟩

theorem locations_differ_iff_crowded : nestedChain.root = topChain.root ∧
    ofChain "out" nestedChain ≠ ofChain "out" topChain ∧
    ∃ set, crowded.resolve ["image"] = .ok set ∧
      KeptApart set (crowded.resolution nestedChain ⟨sharedLibrary, ⟨.notice, none, none⟩⟩)
        (crowded.resolution topChain ⟨sharedLibrary, ⟨.notice, none, none⟩⟩) := by
  obtain ⟨hpaths, hnames, hkept⟩ :=
    locations_differ_iff crowded (show nestedChain.root = topChain.root from rfl)
  have hpieces := hnames (by decide) (by decide)
  have hnested : crowded.Obliges ["image"] nestedChain sharedLibrary ⟨.notice, none, none⟩ :=
    { root := ⟨"image", by decide, rfl⟩
      walked := ⟨⟨by decide, rfl, by decide, rfl, trivial⟩, by decide⟩
      contributes := .refl sharedLibrary
      declared := by decide }
  have htop : crowded.Obliges ["image"] topChain sharedLibrary ⟨.notice, none, none⟩ :=
    { root := ⟨"image", by decide, rfl⟩
      walked := ⟨⟨by decide, rfl, trivial⟩, by decide⟩
      contributes := .refl sharedLibrary
      declared := by decide }
  exact ⟨rfl, hpaths.mpr hpieces, _, rfl,
    (hkept hpieces).2 _ _ _ _ _ _ crowded_keyedById rfl hnested htop⟩

/-- Three chains to the library have different names and one install path, and the set has one
entry for all of them. -/
theorem locations_coincide : crowded.IsChain nestedChain ∧ crowded.IsChain slashedChain ∧
    crowded.IsChain flatChain ∧
    nestedChain.names = ["data", "lib.so"] ∧ slashedChain.names = ["data", "/lib.so"] ∧
    flatChain.names = ["data/lib.so"] ∧
    (∀ chain ∈ [nestedChain, slashedChain, flatChain], crowded.get? "image" = some chain.root ∧
      chain.last = sharedLibrary ∧
      ofChain crowded.outputRoot chain = "out/system.img/data/lib.so") ∧
    ∃ set, crowded.resolve ["image"] = .ok set ∧
      set.toList.map (·.installPath) = ["out/system.img/data/lib.so", "out/system.img/lib.so"] :=
  ⟨⟨⟨by decide, rfl, by decide, rfl, trivial⟩, by decide⟩,
    ⟨⟨by decide, rfl, by decide, rfl, trivial⟩, by decide⟩, ⟨⟨by decide, rfl, trivial⟩, by decide⟩,
    rfl, rfl, rfl, by decide, _, rfl, by decide⟩

end Image

end LicenseNotice.Graph
