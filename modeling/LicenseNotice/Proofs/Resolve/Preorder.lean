import Mathlib.Data.List.Induction
import LicenseNotice.Proofs.Resolve.Obligations

/-! # The order of discovery

The member edges along a chain have places in the declarations of their containers. A walk lists the
chains without repeated ids by these places in lexicographic order: a chain before its extensions,
the extensions in the order of declaration, and a member that is declared twice is met twice. What
a resolution lists follows this order, root after root, each triple where it is met first.
-/

namespace LicenseNotice.Graph

set_option autoImplicit false

section Definitions

variable (g : Graph)

/-- The steps take the member edges at these places, the first one of `t`. -/
def Placed : Target → List Nat → List Step → Prop
  | _, [], [] => True
  | t, place :: places, step :: steps => t.memberEdges[place]? = some step.edge ∧
      g.get? step.edge.dependency = some step.member ∧ Placed step.member places steps
  | _, _, _ => False

/-- A chain from `root` on which no id repeats, along the edges at these places. -/
def LeadsTo (root : Target) (places : List Nat) (chain : Chain) : Prop :=
  chain.root = root ∧ g.Placed root places chain.steps ∧ (chain.targets.map (·.id)).Nodup

/-- A continuation of `chain` along the edges at these places that keeps off its path. -/
def Continues (onPath : List String) (chain : Chain) (places : List Nat) (longer : Chain) : Prop :=
  ∃ more, longer = ⟨chain.root, chain.steps ++ more⟩ ∧ g.Placed chain.last places more ∧
    Fresh onPath more

/-- A continuation of `chain` by one of the given edges and then by any others. -/
def Branches (onPath : List String) (chain : Chain) (edges : List Edge) (places : List Nat)
    (longer : Chain) : Prop :=
  ∃ place rest edge member, places = place :: rest ∧ edges[place]? = some edge ∧
    g.get? edge.dependency = some member ∧ member.id ∉ onPath ∧
    g.Continues (member.id :: onPath) (chain.extend ⟨edge, member⟩) rest longer

end Definitions

/-- The chains that `P` finds at some places, each once for its places, in the order of these. -/
def InOrder (P : List Nat → Chain → Prop) (chains : List Chain) : Prop :=
  ∃ entries : List (List Nat × Chain), entries.Pairwise (·.1 < ·.1) ∧
    (∀ places chain, (places, chain) ∈ entries ↔ P places chain) ∧ entries.map (·.2) = chains

namespace InOrder

variable {P Q : List Nat → Chain → Prop} {chains others : List Chain}

protected theorem congr (h : InOrder P chains) (hPQ : ∀ places chain, P places chain ↔ Q places chain) :
    InOrder Q chains := by
  obtain ⟨entries, hsorted, hentries, hchains⟩ := h
  exact ⟨entries, hsorted, fun places chain => (hentries places chain).trans (hPQ places chain), hchains⟩

/-- The order leaves no choice. -/
protected theorem unique (h : InOrder P chains) (h' : InOrder P others) : chains = others := by
  obtain ⟨entries, hsorted, hentries, rfl⟩ := h
  obtain ⟨entries', hsorted', hentries', rfl⟩ := h'
  have hnodup : ∀ entries : List (List Nat × Chain), entries.Pairwise (·.1 < ·.1) → entries.Nodup := by
    intro entries hsorted
    refine hsorted.imp ?_
    rintro entry _ hlt rfl
    exact List.lt_irrefl entry.1 hlt
  have hperm : entries.Perm entries' := by
    rw [List.perm_ext_iff_of_nodup (hnodup _ hsorted) (hnodup _ hsorted')]
    exact fun ⟨places, chain⟩ => (hentries places chain).trans (hentries' places chain).symm
  have heq : entries = entries' :=
    hperm.eq_of_pairwise (fun _ _ _ _ hlt hlt' => absurd hlt' (List.lt_asymm hlt)) hsorted hsorted'
  rw [heq]

theorem nil (h : ∀ places chain, ¬ P places chain) : InOrder P [] :=
  ⟨[], .nil, fun places chain => iff_of_false List.not_mem_nil (h places chain), rfl⟩

theorem append (h : InOrder P chains) (h' : InOrder Q others)
    (hlt : ∀ places chain later other, P places chain → Q later other → places < later) :
    InOrder (fun places chain => P places chain ∨ Q places chain) (chains ++ others) := by
  obtain ⟨entries, hsorted, hentries, rfl⟩ := h
  obtain ⟨entries', hsorted', hentries', rfl⟩ := h'
  refine ⟨entries ++ entries', List.pairwise_append.mpr ⟨hsorted, hsorted', ?_⟩, ?_, List.map_append⟩
  · rintro ⟨places, chain⟩ hmem ⟨later, other⟩ hmem'
    exact hlt _ _ _ _ ((hentries _ _).mp hmem) ((hentries' _ _).mp hmem')
  · intro places chain
    rw [List.mem_append, hentries, hentries']

/-- A chain comes before what is found beyond it. -/
theorem cons (chain : Chain) (h : InOrder P chains) (hne : ∀ longer, ¬ P [] longer) :
    InOrder (fun places longer => places = [] ∧ longer = chain ∨ P places longer)
      (chain :: chains) := by
  have hfirst : InOrder (fun places longer => places = [] ∧ longer = chain) [chain] :=
    ⟨[([], chain)], List.pairwise_singleton _ _, by simp, rfl⟩
  refine hfirst.append h ?_
  rintro _ _ (_ | ⟨place, later⟩) other ⟨rfl, -⟩ hP
  · exact absurd hP (hne other)
  · exact List.nil_lt_cons place later

/-- What is found beyond one edge is found in the same order from before it. -/
theorem below (place : Nat) (h : InOrder P chains) :
    InOrder (fun places chain => ∃ rest, places = place :: rest ∧ P rest chain) chains := by
  obtain ⟨entries, hsorted, hentries, rfl⟩ := h
  refine ⟨entries.map fun entry => (place :: entry.1, entry.2), ?_, fun places chain => ?_, ?_⟩
  · exact hsorted.map _ fun _ _ hlt => List.cons_lt_cons_iff.mpr (.inr ⟨rfl, hlt⟩)
  · simp only [List.mem_map, Prod.mk.injEq]
    constructor
    · rintro ⟨⟨rest, chain⟩, hmem, rfl, rfl⟩
      exact ⟨rest, rfl, (hentries rest chain).mp hmem⟩
    · rintro ⟨rest, rfl, hP⟩
      exact ⟨(rest, chain), (hentries rest chain).mpr hP, rfl, rfl⟩
  · simp

end InOrder

variable {g : Graph} {onPath : List String} {chain longer : Chain} {places : List Nat} {depth : Nat}
  {root : Target} {edges : List Edge} {edge : Edge} {roots : List String}

theorem continues_iff : g.Continues onPath chain places longer ↔ (places = [] ∧ longer = chain) ∨
    g.Branches onPath chain chain.last.memberEdges places longer := by
  constructor
  · rintro ⟨more, rfl, hplaced, hfresh⟩
    match places, more, hplaced with
    | [], [], _ => exact .inl ⟨rfl, by simp⟩
    | place :: rest, ⟨edge, member⟩ :: more, ⟨hedge, hget, hrest⟩ =>
      obtain ⟨hid, hfresh⟩ := fresh_cons.mp hfresh
      refine .inr ⟨place, rest, edge, member, rfl, hedge, hget, hid, more, by simp [Chain.extend], ?_,
        hfresh⟩
      rw [Chain.last_extend]
      exact hrest
  · rintro (⟨rfl, rfl⟩ | ⟨place, rest, edge, member, rfl, hedge, hget, hid, more, rfl, hplaced, hfresh⟩)
    · exact ⟨[], by simp, trivial, by simp [Fresh]⟩
    · rw [Chain.last_extend] at hplaced
      exact ⟨⟨edge, member⟩ :: more, by simp [Chain.extend], ⟨hedge, hget, hplaced⟩,
        fresh_cons.mpr ⟨hid, hfresh⟩⟩

theorem getElem?_concat_eq_some {taken : Edge} {place : Nat} :
    (edges ++ [edge])[place]? = some taken ↔
      edges[place]? = some taken ∨ place = edges.length ∧ taken = edge := by
  rcases Nat.lt_trichotomy place edges.length with hlt | rfl | hgt
  · rw [List.getElem?_append_left hlt, or_iff_left fun h => Nat.ne_of_lt hlt h.1]
  · simp [eq_comm]
  · rw [List.getElem?_eq_none (by simp; omega), List.getElem?_eq_none (Nat.le_of_lt hgt)]
    simp [Nat.ne_of_gt hgt]

/-- An edge that is added at the end adds the continuations by it, and their places come last. -/
theorem branches_concat : g.Branches onPath chain (edges ++ [edge]) places longer ↔
    g.Branches onPath chain edges places longer ∨ ∃ rest, places = edges.length :: rest ∧
      ∃ member, g.get? edge.dependency = some member ∧ member.id ∉ onPath ∧
        g.Continues (member.id :: onPath) (chain.extend ⟨edge, member⟩) rest longer := by
  constructor
  · rintro ⟨place, rest, taken, member, rfl, htaken, hbeyond⟩
    rcases getElem?_concat_eq_some.mp htaken with htaken | ⟨rfl, rfl⟩
    · exact .inl ⟨place, rest, taken, member, rfl, htaken, hbeyond⟩
    · exact .inr ⟨rest, rfl, member, hbeyond⟩
  · rintro (⟨place, rest, taken, member, rfl, htaken, hbeyond⟩ | ⟨rest, rfl, member, hbeyond⟩)
    · exact ⟨place, rest, taken, member, rfl, getElem?_concat_eq_some.mpr (.inl htaken), hbeyond⟩
    · exact ⟨_, rest, edge, member, rfl, getElem?_concat_eq_some.mpr (.inr ⟨rfl, rfl⟩), hbeyond⟩

section Walks

variable {chains : List Chain}

/-- With room for `depth` more steps, every walk lists the continuations of its chain in order. -/
def WalksInOrder (g : Graph) (depth : Nat) : Prop :=
  ∀ onPath chain chains, g.walkFrom depth onPath chain = .ok chains →
    InOrder (g.Continues onPath chain) chains

theorem inOrder_walkEdge (deeper : g.WalksInOrder depth)
    (h : g.walkEdge depth onPath chain edge = .ok chains) :
    InOrder (fun places longer => ∃ member, g.get? edge.dependency = some member ∧
      member.id ∉ onPath ∧
        g.Continues (member.id :: onPath) (chain.extend ⟨edge, member⟩) places longer) chains := by
  obtain ⟨member, hget, ⟨hon, rfl⟩ | ⟨hoff, hwalk⟩⟩ := walkEdge_eq_ok.mp h
  · refine .nil ?_
    rintro places longer ⟨member', hget', hoff, -⟩
    cases hget.symm.trans hget'
    exact hoff hon
  · refine (deeper _ _ _ hwalk).congr fun places longer =>
      ⟨fun hbeyond => ⟨member, hget, hoff, hbeyond⟩, ?_⟩
    rintro ⟨member', hget', -, hbeyond⟩
    cases hget.symm.trans hget'
    exact hbeyond

theorem inOrder_walkEdges (deeper : g.WalksInOrder depth) {found : List (List Chain)}
    (h : edges.mapM (g.walkEdge depth onPath chain) = .ok found) :
    InOrder (g.Branches onPath chain edges) found.flatten := by
  -- From the end: the place of an edge is the number of edges before it.
  induction edges using List.reverseRecOn generalizing found with
  | nil =>
    cases h
    refine .nil ?_
    rintro _ _ ⟨place, rest, edge, member, -, hedge, -⟩
    cases hedge
  | append_singleton edges edge ih =>
    rw [List.mapM_append] at h
    obtain ⟨before, hbefore, h⟩ := Refusal.bind_eq_ok.mp h
    obtain ⟨last, hlast, rfl⟩ := Refusal.bind_pure_eq_ok.mp h
    obtain ⟨_, hstep, hnil⟩ : ∃ chains, g.walkEdge depth onPath chain edge = .ok chains ∧
        last = [chains] := by
      obtain _ | ⟨hstep, hnil⟩ := Refusal.mapM_eq_ok.mp hlast
      obtain _ | _ := hnil
      exact ⟨_, hstep, rfl⟩
    subst hnil
    rw [List.flatten_append, List.flatten_singleton]
    refine (InOrder.append (ih hbefore) ((inOrder_walkEdge deeper hstep).below edges.length) ?_).congr
      fun places longer => branches_concat.symm
    rintro _ _ _ _ ⟨place, rest, taken, member, rfl, htaken, -⟩ ⟨later, rfl, -⟩
    obtain ⟨hlt, -⟩ := List.getElem?_eq_some_iff.mp htaken
    exact List.cons_lt_cons_iff.mpr (.inl hlt)

theorem walksInOrder (g : Graph) (depth : Nat) : g.WalksInOrder depth := by
  induction depth with
  | zero =>
    intro onPath chain chains h
    rw [walkFrom_zero] at h
    cases h
  | succ depth ih =>
    intro onPath chain chains h
    obtain ⟨below, hbelow, rfl⟩ := walkFrom_succ_eq_ok.mp h
    refine (InOrder.cons chain (inOrder_walkEdges ih hbelow) ?_).congr fun _ _ => continues_iff.symm
    rintro longer ⟨place, rest, -, -, hnil, -⟩
    cases hnil

/-- A walk lists the chains from its root on which no id repeats, in preorder. -/
theorem inOrder_walk (h : g.walk root = .ok chains) : InOrder (g.LeadsTo root) chains := by
  refine (walksInOrder g g.size [root.id] ⟨root, []⟩ chains h).congr fun places longer => ?_
  constructor
  · rintro ⟨steps, rfl, hplaced, hfresh⟩
    exact ⟨rfl, hplaced, nodup_ids_iff_fresh.mpr hfresh⟩
  · rintro ⟨rfl, hplaced, hids⟩
    exact ⟨longer.steps, rfl, hplaced, nodup_ids_iff_fresh.mp hids⟩

end Walks

section Resolutions

variable {targets : List Target} {walks : List (List Chain)}

theorem inOrder_walks (hroots : roots.mapM g.root = .ok targets)
    (hwalks : targets.mapM g.walk = .ok walks) :
    List.Forall₂ (fun key chains => ∃ root, g.get? key = some root ∧ InOrder (g.LeadsTo root) chains)
      roots walks := by
  rw [Refusal.mapM_eq_ok] at hroots hwalks
  induction hroots generalizing walks with
  | nil =>
    cases hwalks
    exact .nil
  | cons hroot _ ih =>
    obtain _ | ⟨hwalk, hwalks⟩ := hwalks
    exact .cons ⟨_, root_eq_ok.mp hroot, inOrder_walk hwalk⟩ (ih hwalks)

/-- The obligations at the end of a chain, in the order in which they are attached there. -/
def Discovers (g : Graph) (chain : Chain) (found : List Resolution) : Prop :=
  ∃ as, g.attachments chain.last = .ok as ∧ found = as.map fun a =>
    { notice := a.condition.noticeKey
      library := libraryName a.origin a.condition
      installPath := InstallPath.ofChain g.outputRoot chain
      shipped := chain.last.id
      origin := a.origin.id }

/-- A resolution lists, root after root and chain after chain in preorder, the obligations at the end
of the chain, and keeps the first of each triple. -/
theorem resolve_in_preorder (hg : g.KeyedById) {set : ResolutionSet}
    (h : g.resolve roots = .ok set) : ∃ walks found,
      List.Forall₂ (fun key chains => ∃ root, g.get? key = some root ∧
        InOrder (g.LeadsTo root) chains) roots walks ∧
      List.Forall₂ g.Discovers walks.flatten found ∧
      set.toList = distinctBy (·.triple) found.flatten := by
  obtain ⟨_, targets, shipped, table, walks, hroots, hshipped, htable, hwalks, rfl⟩ :=
    resolve_eq_ok.mp h
  refine ⟨walks, walks.flatten.map (g.resolutionsOf table), inOrder_walks hroots hwalks, ?_, ?_⟩
  · rw [List.forall₂_map_right_iff, List.forall₂_same]
    intro chain hchain
    obtain ⟨hroot, hischain⟩ := (mem_walks hroots hwalks).mp hchain
    exact resolutionsOf_eq hg hroots hshipped htable (hischain.ships hroot)
  · rw [ResolutionSet.toList_ofList, List.flatMap_def]

/-- An image and its vendor directory hold each other, and the image holds a library twice. -/
def layered : Graph :=
  ofTargets "out"
    [{ id := "image", kind := .container, installName := "system.img"
       deps := [⟨"vendor", .container, none⟩, ⟨"lib", .container, some "compat/lib.so"⟩,
         ⟨"lib", .container, none⟩] },
     { id := "vendor", kind := .container, installName := "vendor"
       deps := [⟨"image", .container, none⟩, ⟨"lib", .container, none⟩] },
     { id := "lib", installName := "lib.so", conditions := [⟨.notice, none, none⟩] }]

theorem resolve_in_preorder_layered : layered.KeyedById ∧
    ∃ set, layered.resolve ["image", "vendor"] = .ok set ∧
      set.toList.map (·.installPath) =
        ["out/system.img/vendor/lib.so", "out/system.img/compat/lib.so", "out/system.img/lib.so",
          "out/vendor/system.img/compat/lib.so", "out/vendor/system.img/lib.so",
          "out/vendor/lib.so"] ∧
      ∃ walks found,
        List.Forall₂ (fun key chains => ∃ root, layered.get? key = some root ∧
          InOrder (layered.LeadsTo root) chains) ["image", "vendor"] walks ∧
        List.Forall₂ layered.Discovers walks.flatten found ∧
        set.toList = distinctBy (·.triple) found.flatten := by
  have hkeyed : layered.KeyedById := keyedById_ofTargets _ _
  exact ⟨hkeyed, _, rfl, by decide, resolve_in_preorder hkeyed rfl⟩

end Resolutions

end LicenseNotice.Graph
