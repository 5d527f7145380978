import Mathlib.Logic.Relation
import LicenseNotice.Proofs.Graph.Lookup
import LicenseNotice.Resolve.Error

/-! # Reachability in a graph

The relations a resolution is about, said without any traversal: what ships with a list of roots,
which targets contribute their conditions to a shipped one, and which targets of the graph matter
at all. Look-ups that find nothing belong to no relation here; `EdgesFound` excludes them.
-/

namespace LicenseNotice

set_option autoImplicit false

open Relation (ReflTransGen)

/-- The linkages by which a dependency is installed beside its dependent. -/
def Linkage.alongside : List Linkage := [dynamic, runtime]

namespace Graph

section Relations

variable (g : Graph)

/-- An edge of `t` with one of the linkages leads to `dep`. -/
def Links (linkages : List Linkage) (t dep : Target) : Prop :=
  ∃ edge ∈ t.deps, edge.linkage ∈ linkages ∧ g.get? edge.dependency = some dep

def InStaticClosure (t o : Target) : Prop := ReflTransGen (g.Links [.static]) t o

/-- The conditions of `o` reach `t`: along static edges alone, or across one dynamic or runtime edge
and then along static edges again. -/
def Contributes (t o : Target) : Prop :=
  g.InStaticClosure t o ∨ ∃ via dep, g.InStaticClosure t via ∧
    g.Links Linkage.alongside via dep ∧ g.InStaticClosure dep o

/-- `t` is a root or is reached from one through members of containers. -/
def Ships (roots : List String) (t : Target) : Prop :=
  ∃ key ∈ roots, ∃ root, g.get? key = some root ∧ ReflTransGen (g.Links [.container]) root t

/-- Nothing else that ships with the roots goes by the id of `t`. -/
def SoleOfId (roots : List String) (t : Target) : Prop :=
  ∀ u, g.Ships roots u → u.id = t.id → u = t

def Relevant (roots : List String) (o : Target) : Prop :=
  ∃ t, g.Ships roots t ∧ g.Contributes t o

/-- Every edge of `t`, of whatever linkage, names a target of the graph. -/
def EdgesFound (t : Target) : Prop := ∀ edge ∈ t.deps, g.contains edge.dependency

/-- `e` reports an edge of `t` that names nothing. -/
def Dangles (t : Target) (e : ResolveError) : Prop :=
  ∃ edge ∈ t.deps, g.get? edge.dependency = none ∧ e = .graphIncomplete t.id edge.dependency

end Relations

variable {g : Graph} {linkages : List Linkage} {roots : List String} {t u o : Target} {edge : Edge}

theorem Links.mem_targets (h : g.Links linkages t u) : u ∈ g.targets := by
  obtain ⟨_, _, _, hget⟩ := h
  exact mem_targets_of_get? hget

theorem mem_targets_of_reaches (ht : t ∈ g.targets) (h : ReflTransGen (g.Links linkages) t u) :
    u ∈ g.targets := by
  cases h with
  | refl => exact ht
  | tail _ hlast => exact hlast.mem_targets

theorem Ships.mem_targets (h : g.Ships roots t) : t ∈ g.targets := by
  obtain ⟨_, _, _, hget, hreach⟩ := h
  exact mem_targets_of_reaches (mem_targets_of_get? hget) hreach

theorem Ships.member (h : g.Ships roots t) (hlink : g.Links [.container] t u) : g.Ships roots u := by
  obtain ⟨key, hkey, root, hget, hreach⟩ := h
  exact ⟨key, hkey, root, hget, hreach.tail hlink⟩

theorem KeyedById.soleOfId (hg : g.KeyedById) (ht : g.Ships roots t) : g.SoleOfId roots t :=
  fun _ hu hid => hg.eq_of_id_eq hu.mem_targets ht.mem_targets hid

theorem Contributes.refl (t : Target) : g.Contributes t t := .inl .refl

theorem Contributes.mem_targets (ht : t ∈ g.targets) (h : g.Contributes t o) : o ∈ g.targets := by
  rcases h with h | ⟨_, _, _, hlink, h⟩
  · exact mem_targets_of_reaches ht h
  · exact mem_targets_of_reaches hlink.mem_targets h

theorem Ships.relevant (h : g.Ships roots t) : g.Relevant roots t := ⟨t, h, .refl t⟩

theorem EdgesFound.not_dangles (h : g.EdgesFound t) (e : ResolveError) : ¬ g.Dangles t e := by
  rintro ⟨edge, hedge, hget, _⟩
  exact get?_eq_none_iff.mp hget (h edge hedge)

theorem follow_eq_ok : g.follow t edge = .ok u ↔ g.get? edge.dependency = some u := by
  cases h : g.get? edge.dependency <;> simp [follow, h]

theorem follow_eq_error {e : ResolveError} : g.follow t edge = .error e ↔
    g.get? edge.dependency = none ∧ e = .graphIncomplete t.id edge.dependency := by
  cases h : g.get? edge.dependency <;> simp [follow, h, eq_comm]

/-- A system image that holds an app and, wrongly, itself. The app and a library link each other
statically, the library loads a plugin, and the plugin loads a codec; the app is built by a tool. -/
def sampleImage : Graph :=
  ofTargets "out"
    [{ id := "image", kind := .container, installName := "system.img"
       deps := [⟨"app", .container, some "bin/app"⟩, ⟨"image", .container, none⟩] },
     { id := "app", installName := "app", package := some "App"
       conditions := [⟨.firstParty, none, none⟩]
       deps := [⟨"lib", .static, none⟩, ⟨"tool", .toolchain, none⟩] },
     { id := "lib", installName := "lib.a"
       conditions := [⟨.notice, some "external/lib/NOTICE", none⟩]
       deps := [⟨"app", .static, none⟩, ⟨"plugin", .runtime, none⟩] },
     { id := "plugin", installName := "plugin.so", package := some "Plugin"
       conditions := [⟨.restricted, none, none⟩]
       deps := [⟨"codec", .dynamic, none⟩] },
     { id := "codec", installName := "codec.so", conditions := [⟨.proprietary, none, none⟩] },
     { id := "tool", installName := "tool", conditions := [⟨.proprietary, none, none⟩] }]

theorem sampleImage_keyedById : sampleImage.KeyedById := keyedById_ofTargets _ _

end Graph

end LicenseNotice
