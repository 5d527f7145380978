import LicenseNotice.Proofs.Resolve.Attachment

/-! # Expanding anew

A plain recursion gathers what reaches a target: a target is passed over only while it is in
progress on the current static path, and is expanded again wherever else it is met. Keeping first
occurrences, that gives what an expansion with visited ids finds. What the expansion passes over
beyond the path is finished: all it leads to off the path has been found.
-/

namespace LicenseNotice

set_option autoImplicit false

namespace Attachment

/-- Attachments are the same if their origins have one id and their conditions are equal. -/
def key (a : Attachment) : String × Condition := (a.origin.id, a.condition)

def firsts (as : List Attachment) : List Attachment := distinctBy key as

variable {as bs cs : List Attachment}

theorem firsts_append_left (h : firsts as = firsts bs) : firsts (as ++ cs) = firsts (bs ++ cs) := by
  rw [firsts, firsts, distinctBy_append, distinctBy_append key bs]
  exact congrArg (fun kept => distinctBy key (kept ++ distinctBy key cs)) h

theorem firsts_append_right (h : firsts bs = firsts cs) : firsts (as ++ bs) = firsts (as ++ cs) := by
  rw [firsts, firsts, distinctBy_append, distinctBy_append key as cs]
  exact congrArg (fun kept => distinctBy key (distinctBy key as ++ kept)) h

theorem firsts_append_known (h : ∀ b ∈ bs, b.key ∈ as.map key) : firsts (as ++ bs) = firsts as := by
  have hknown := distinctBy_append_known key h []
  rwa [List.append_nil, List.append_nil] at hknown

theorem mem_keys_firsts {k : String × Condition} : k ∈ (firsts as).map key ↔ k ∈ as.map key :=
  mem_map_distinctFrom.trans (and_iff_left List.not_mem_nil)

end Attachment

open Attachment (firsts)

/-- The conditions of all targets found. -/
def Expansion.attached (now : Expansion) : List Attachment :=
  now.found.flatMap (·.ownAttachments)

theorem Expansion.attached_enter (past : Expansion) (t : Target) :
    (past.enter t).attached = past.attached ++ t.ownAttachments := by
  rw [attached, enter, List.flatMap_append, List.flatMap_singleton, attached]

theorem Expansion.subset_attached {found : List Target} {now : Expansion} (h : found ⊆ now.found) :
    found.flatMap (·.ownAttachments) ⊆ now.attached := by
  intro a ha
  obtain ⟨o, ho, ha⟩ := List.mem_flatMap.mp ha
  exact List.mem_flatMap.mpr ⟨o, h ho, ha⟩

namespace Graph

/-- What each target of the graph brings to a dependent, or why that cannot be said. -/
abbrev Bringing (g : Graph) := ∀ dep, dep ∈ g.targets → Except ResolveError (List Attachment)

/-- What reaches `t` while the ids of `path` are in progress: nothing if `t` is among them, else its
own conditions and then what its edges bring, in declaration order. `across` says what a dynamic or
runtime dependency brings. -/
def gather (g : Graph) (across : g.Bringing) (path : List String) (t : Target)
    (ht : t ∈ g.targets) : Except ResolveError (List Attachment) :=
  if hid : t.id ∈ path then .ok []
  else do
    have : g.unseen (t.id :: path) < g.unseen path := unseen_cons_lt ht hid
    let brought ← t.deps.mapM fun edge =>
      match hdep : g.follow t edge with
      | .error e => .error e
      | .ok dep =>
        have hmem : dep ∈ g.targets := mem_targets_of_get? (follow_eq_ok.mp hdep)
        match edge.linkage with
        | .static => g.gather across (t.id :: path) dep hmem
        | .dynamic | .runtime => across dep hmem
        | .toolchain | .container => .ok []
    return t.ownAttachments ++ brought.flatten
termination_by g.unseen path

/-- What a dynamic or runtime dependency brings: its own such edges bring nothing more. -/
def gatherStatic (g : Graph) : g.Bringing := g.gather (fun _ _ => .ok []) []

def gatherAll (g : Graph) : g.Bringing := g.gather g.gatherStatic []

def gatherEdge (g : Graph) (across : g.Bringing) (path : List String) (t : Target) (edge : Edge) :
    Except ResolveError (List Attachment) :=
  match hdep : g.follow t edge with
  | .error e => .error e
  | .ok dep =>
    have hmem : dep ∈ g.targets := mem_targets_of_get? (follow_eq_ok.mp hdep)
    match edge.linkage with
    | .static => g.gather across path dep hmem
    | .dynamic | .runtime => across dep hmem
    | .toolchain | .container => .ok []

section Steps

variable {g : Graph} {across : g.Bringing} {path : List String} {t dep : Target} {edge : Edge}
  {e : ResolveError}

theorem gather_of_in_progress (ht : t ∈ g.targets) (hid : t.id ∈ path) :
    g.gather across path t ht = .ok [] := by
  rw [gather, dif_pos hid]

theorem gather_of_fresh (ht : t ∈ g.targets) (hid : t.id ∉ path) :
    g.gather across path t ht = (t.deps.mapM (g.gatherEdge across (t.id :: path) t)).map
      fun brought => t.ownAttachments ++ brought.flatten := by
  rw [gather, dif_neg hid]
  rfl

theorem gatherEdge_of_error (h : g.follow t edge = .error e) :
    g.gatherEdge across path t edge = .error e := by
  unfold gatherEdge
  split <;> simp_all

theorem gatherEdge_of_ok (h : g.follow t edge = .ok dep) (hdep : dep ∈ g.targets) :
    g.gatherEdge across path t edge =
      match edge.linkage with
      | .static => g.gather across path dep hdep
      | .dynamic | .runtime => across dep hdep
      | .toolchain | .container => .ok [] := by
  unfold gatherEdge
  split
  case h_1 he => cases he.symm.trans h
  case h_2 found hfound =>
    cases hfound.symm.trans h
    rfl

end Steps

/-- Both fail alike, or the conditions of the targets found are those that were gathered. -/
def Agrees (x : Except ResolveError (List Target)) (y : Except ResolveError (List Attachment)) :
    Prop :=
  x.map (fun found => firsts (found.flatMap (·.ownAttachments))) = y.map firsts

/-- An expansion under way: the ids in progress are visited, and all else that is visited is
finished. -/
structure Underway (g : Graph) (linked : Target → Except ResolveError (List Target))
    (path : List String) (past : Expansion) : Prop where
  inProgress : path ⊆ past.visited
  finished : ∀ u ∈ g.targets, u.id ∈ past.visited → u.id ∈ path ∨ g.Settled linked u past

/-- With room for `depth` targets, an expansion adds what is gathered along the path. -/
def Gathers (g : Graph) (linked : Target → Except ResolveError (List Target))
    (across : g.Bringing) (depth : Nat) : Prop :=
  ∀ path past t (ht : t ∈ g.targets), g.Underway linked path past →
    g.unseen past.visited ≤ depth → (g.expand linked depth past t).map (firsts ·.attached) =
      (g.gather across path t ht).map fun as => firsts (past.attached ++ as)

section Runs

variable {g : Graph} {across : g.Bringing} {linked : Target → Except ResolveError (List Target)}
  {path : List String} {past now : Expansion} {depth : Nat} {t u dep : Target} {edge : Edge}

theorem Agrees.of_ok {found : List Target} {y : Except ResolveError (List Attachment)}
    (h : Agrees (.ok found) y) :
    ∃ as, y = .ok as ∧ firsts as = firsts (found.flatMap (·.ownAttachments)) :=
  Refusal.map_eq_ok.mp h.symm

theorem Agrees.of_error {e : ResolveError} {y : Except ResolveError (List Attachment)}
    (h : Agrees (.error e) y) : y = .error e :=
  Refusal.map_eq_error.mp h.symm

/-- What is added to the targets found agrees with what is added to what was gathered. -/
theorem Agrees.add {x : Except ResolveError (List Target)}
    {y : Except ResolveError (List Attachment)} (h : Agrees x y) (past : Expansion) :
    (x >>= fun found => .ok { past with found := past.found ++ found }).map (firsts ·.attached) =
      y.map fun as => firsts (past.attached ++ as) := by
  cases x with
  | error e => rw [h.of_error]; rfl
  | ok found =>
    obtain ⟨as, rfl, hfirsts⟩ := h.of_ok
    have hadded : Expansion.attached { past with found := past.found ++ found } =
        past.attached ++ found.flatMap (·.ownAttachments) := List.flatMap_append
    exact congrArg Except.ok
      ((congrArg firsts hadded).trans (Attachment.firsts_append_right hfirsts.symm))

namespace Underway

protected theorem empty (g : Graph) (linked : Target → Except ResolveError (List Target)) :
    g.Underway linked [] {} :=
  ⟨List.nil_subset _, fun _ _ hid => absurd hid List.not_mem_nil⟩

theorem enter (h : g.Underway linked path past) (t : Target) :
    g.Underway linked (t.id :: path) (past.enter t) where
  inProgress := List.cons_subset_cons t.id h.inProgress
  finished u hu hid := by
    rcases List.mem_cons.mp hid with hid | hid
    · exact .inl (hid ▸ List.mem_cons_self)
    · refine (h.finished u hu hid).imp (List.mem_cons_of_mem _) fun hsettled => ?_
      exact hsettled.mono (List.subset_append_left _ _) (List.subset_cons_self _ _)

theorem expands (h : g.Underway linked path past) (hg : g.KeyedById)
    (hexpands : g.Expands linked (· ∈ g.targets) past now) : g.Underway linked path now where
  inProgress := List.Subset.trans h.inProgress hexpands.visited
  finished u hu hid := by
    rcases hexpands.settled u.id hid with hid | ⟨v, hv, hvu, hsettled⟩
    · exact (h.finished u hu hid).imp_right fun hsettled =>
        hsettled.mono hexpands.found hexpands.visited
    · exact .inr (hg.eq_of_id_eq hv hu hvu ▸ hsettled)

end Underway

variable (agrees : ∀ dep hdep, Agrees (linked dep) (across dep hdep))

include agrees

/-- Expanding a finished target again brings nothing that has not been found. -/
theorem gather_of_visited (h : g.Underway linked path past) {longer : List String}
    (hsub : path ⊆ longer) (ht : t ∈ g.targets) (hid : t.id ∈ past.visited) :
    ∃ as, g.gather across longer t ht = .ok as ∧
      ∀ a ∈ as, a.key ∈ past.attached.map Attachment.key := by
  -- By induction on the targets off the path: what a finished target leads to off the path has been
  -- visited, and so is finished as well.
  induction hn : g.unseen longer using Nat.strongRecOn generalizing longer t with
  | ind n ih =>
    by_cases hin : t.id ∈ longer
    · exact ⟨[], gather_of_in_progress ht hin, by simp⟩
    · have hsettled := (h.finished t ht hid).resolve_left fun hp => hin (hsub hp)
      have hless := unseen_cons_lt ht hin
      have hedges : ∀ edge ∈ t.deps, ∃ as, g.gatherEdge across (t.id :: longer) t edge = .ok as ∧
          ∀ a ∈ as, a.key ∈ past.attached.map Attachment.key := by
        intro edge hedge
        obtain ⟨dep, hget, hstatic, halongside⟩ := hsettled.edges edge hedge
        have hdep := mem_targets_of_get? hget
        rw [gatherEdge_of_ok (follow_eq_ok.mpr hget) hdep]
        cases hl : edge.linkage
        case static =>
          exact ih _ (hn ▸ hless) (List.subset_cons_of_subset _ hsub) hdep (hstatic hl) rfl
        case dynamic | runtime =>
          obtain ⟨found, hfound, hsubset⟩ := halongside (by simp [hl, Linkage.alongside])
          obtain ⟨as, has, hfirsts⟩ := (hfound ▸ agrees dep hdep).of_ok
          refine ⟨as, has, fun a ha => ?_⟩
          have hkey : a.key ∈ (firsts as).map Attachment.key :=
            Attachment.mem_keys_firsts.mpr (List.mem_map_of_mem ha)
          rw [hfirsts, Attachment.mem_keys_firsts] at hkey
          exact List.map_subset _ (Expansion.subset_attached hsubset) hkey
        case toolchain | container => exact ⟨[], rfl, by simp⟩
      obtain ⟨brought, hbrought⟩ := Refusal.exists_mapM_eq_ok.mpr
        fun edge hedge => (hedges edge hedge).imp fun _ has => has.1
      refine ⟨_, by rw [gather_of_fresh ht hin, hbrought]; rfl, fun a ha => ?_⟩
      rcases List.mem_append.mp ha with ha | ha
      · exact List.mem_map_of_mem (List.mem_flatMap.mpr ⟨t, hsettled.found, ha⟩)
      · obtain ⟨as, has, ha⟩ := List.mem_flatten.mp ha
        obtain ⟨edge, hedge, hstep⟩ := (Refusal.mem_of_mapM_eq_ok hbrought as).mp has
        obtain ⟨as', has', hknown⟩ := hedges edge hedge
        cases hstep.symm.trans has'
        exact hknown a ha

theorem expandEdge_gathers (deeper : g.Gathers linked across depth)
    (h : g.Underway linked path past) (room : g.unseen past.visited ≤ depth) :
    (g.expandEdge linked depth t past edge).map (firsts ·.attached) =
      (g.gatherEdge across path t edge).map fun as => firsts (past.attached ++ as) := by
  rw [expandEdge]
  cases hfollow : g.follow t edge with
  | error e => rw [gatherEdge_of_error hfollow]; rfl
  | ok dep =>
    have hdep := mem_targets_of_get? (follow_eq_ok.mp hfollow)
    rw [gatherEdge_of_ok hfollow hdep]
    cases hl : edge.linkage
    case static => exact deeper path past dep hdep h room
    case dynamic | runtime => exact (agrees dep hdep).add past
    case toolchain | container =>
      exact congrArg (fun as => Except.ok (firsts as)) (List.append_nil _).symm

theorem expandEdges_gathers (hg : g.KeyedById) (deeper : g.Gathers linked across depth)
    (ht : t ∈ g.targets) {edges : List Edge} (hsub : edges ⊆ t.deps)
    (h : g.Underway linked path past) (room : g.unseen past.visited ≤ depth) :
    (edges.foldlM (g.expandEdge linked depth t) past).map (firsts ·.attached) =
      (edges.mapM (g.gatherEdge across path t)).map
        fun brought => firsts (past.attached ++ brought.flatten) := by
  induction edges generalizing past with
  | nil => exact congrArg (fun as => Except.ok (firsts as)) (List.append_nil _).symm
  | cons edge rest ih =>
    obtain ⟨hedge, hrest⟩ := List.cons_subset.mp hsub
    have hstep : (g.expandEdge linked depth t past edge).map (firsts ·.attached) =
        (g.gatherEdge across path t edge).map fun as => firsts (past.attached ++ as) :=
      expandEdge_gathers agrees deeper h room
    rw [List.foldlM_cons, List.mapM_cons]
    cases hfirst : g.expandEdge linked depth t past edge with
    | error e =>
      rw [hfirst] at hstep
      rw [Refusal.map_eq_error.mp hstep.symm]
      rfl
    | ok middle =>
      rw [hfirst] at hstep
      obtain ⟨as, has, hfirsts⟩ := Refusal.map_eq_ok.mp hstep.symm
      have hexpands := (expandEdge_expands (fun _ _ _ hlink => hlink.mem_targets) ht hedge
        (fun _ _ _ => expand_ok fun _ _ _ hlink => hlink.mem_targets) hfirst).1
      have hroom := unseen_anti (g := g) hexpands.visited
      have hadd : ∀ brought : List (List Attachment), firsts (middle.attached ++ brought.flatten) =
          firsts (past.attached ++ (as :: brought).flatten) := fun brought => by
        rw [List.flatten_cons, ← List.append_assoc]
        exact Attachment.firsts_append_left hfirsts.symm
      rw [has]
      calc (rest.foldlM (g.expandEdge linked depth t) middle).map (firsts ·.attached)
        _ = (rest.mapM (g.gatherEdge across path t)).map
              fun brought => firsts (middle.attached ++ brought.flatten) :=
            ih hrest (h.expands hg hexpands) (by omega)
        _ = (rest.mapM (g.gatherEdge across path t)).map
              fun brought => firsts (past.attached ++ (as :: brought).flatten) :=
            Refusal.map_congr_ok fun brought _ => hadd brought
        _ = _ := by cases rest.mapM (g.gatherEdge across path t) <;> rfl

theorem expand_gathers_of_visited (h : g.Underway linked path past) (ht : t ∈ g.targets)
    (hid : t.id ∈ past.visited) : (g.expand linked depth past t).map (firsts ·.attached) =
      (g.gather across path t ht).map fun as => firsts (past.attached ++ as) := by
  obtain ⟨as, has, hknown⟩ := gather_of_visited agrees h (fun _ hin => hin) ht hid
  rw [expand_of_visited hid, has]
  exact congrArg Except.ok (Attachment.firsts_append_known hknown).symm

theorem expand_gathers (hg : g.KeyedById) (depth : Nat) : g.Gathers linked across depth := by
  induction depth with
  | zero =>
    intro path past t ht h room
    by_cases hid : t.id ∈ past.visited
    · exact expand_gathers_of_visited agrees h ht hid
    · have hless := unseen_cons_lt ht hid
      omega
  | succ depth ih =>
    intro path past t ht h room
    by_cases hid : t.id ∈ past.visited
    · exact expand_gathers_of_visited agrees h ht hid
    · have hless := unseen_cons_lt ht hid
      have hedges := expandEdges_gathers agrees hg ih ht (fun _ hedge => hedge) (h.enter t)
        (Nat.le_of_lt_succ (Nat.lt_of_lt_of_le hless room))
      rw [expand_succ hid, gather_of_fresh ht fun hin => hid (h.inProgress hin), hedges]
      simp only [Expansion.attached_enter, List.append_assoc]
      cases t.deps.mapM (g.gatherEdge across (t.id :: path) t) <;> rfl

theorem expand_agrees (hg : g.KeyedById) (ht : t ∈ g.targets) :
    Agrees (g.expand linked g.size {} t >>= fun now => .ok now.found)
      (g.gather across [] t ht) := by
  have hgathers := expand_gathers agrees hg g.size [] {} t ht (.empty g linked)
    (Nat.le_of_eq (unseen_nil g))
  refine Eq.trans ?_ hgathers
  cases g.expand linked g.size {} t <;> rfl

end Runs

section Whole

variable {g : Graph} {t : Target} (hg : g.KeyedById) (ht : t ∈ g.targets)

include hg

theorem staticClosure_agrees : Agrees (g.staticClosure t) (g.gatherStatic t ht) := by
  have hnone : Agrees (.ok []) (.ok []) := rfl
  exact expand_agrees (fun _ _ => hnone) hg ht

theorem contributors_agrees : Agrees (g.contributors t) (g.gatherAll t ht) :=
  expand_agrees (fun _ hdep => staticClosure_agrees hg hdep) hg ht

/-- What is attached to a target are the first occurrences in what the plain recursion gathers for
it, in the same order, and where that fails so does this, at the same missing target. -/
theorem attachments_eq_gather : g.attachments t = (g.gatherAll t ht).map firsts ∧
    ∀ e, g.attachments t = .error e → ∃ dependent missing, e = .graphIncomplete dependent missing := by
  constructor
  · rw [← contributors_agrees hg ht, attachments]
    cases g.contributors t <;> rfl
  · intro e h
    obtain ⟨o, -, edge, -, -, rfl⟩ := attachments_error ht h
    exact ⟨o.id, edge.dependency, rfl⟩

end Whole

/-- Two libraries and the app that links both link one another statically, and the plugin that one
of them loads links the other. -/
def knot : Graph :=
  ofTargets "out"
    [{ id := "app", installName := "app", conditions := [⟨.firstParty, none, none⟩]
       deps := [⟨"left", .static, none⟩, ⟨"right", .static, none⟩] },
     { id := "left", installName := "left.a", conditions := [⟨.notice, some "left/NOTICE", none⟩]
       deps := [⟨"right", .static, none⟩, ⟨"plugin", .runtime, none⟩] },
     { id := "right", installName := "right.a", conditions := [⟨.reciprocal, none, none⟩]
       deps := [⟨"left", .static, none⟩, ⟨"app", .static, none⟩] },
     { id := "plugin", installName := "plugin.so", conditions := [⟨.restricted, none, none⟩]
       deps := [⟨"right", .static, none⟩, ⟨"codec", .dynamic, none⟩] },
     { id := "codec", installName := "codec.so", conditions := [⟨.proprietary, none, none⟩] }]

theorem attachments_eq_gather_knot : knot.KeyedById ∧ ∃ app, ∃ happ : app ∈ knot.targets,
    app.id = "app" ∧ ∃ as, knot.attachments app = .ok as ∧
      as.map (·.origin.id) = ["app", "left", "right", "plugin"] ∧
      (knot.gatherAll app happ).map firsts = .ok as := by
  have hkeyed : knot.KeyedById := keyedById_ofTargets _ _
  have happ : _ ∈ knot.targets := List.mem_cons_self
  exact ⟨hkeyed, _, happ, rfl, _, rfl, rfl, (attachments_eq_gather hkeyed happ).1.symm⟩

end Graph

end LicenseNotice
