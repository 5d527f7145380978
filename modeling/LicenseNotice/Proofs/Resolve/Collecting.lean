import LicenseNotice.Proofs.Resolve.Gathering

/-! # Collecting in one pass

Conditions can be collected while an expansion goes on: those of a target are added when it is met,
unless they were met before. Both kinds of expansion then share what was met so far. That gives the
same as an expansion that lists targets, with the first occurrences of their conditions kept at the
end.
-/

namespace LicenseNotice

set_option autoImplicit false

open Attachment (firsts)

/-- The attachments collected so far and their keys. -/
structure Collection where
  attached : List Attachment := []
  seen : List (String × Condition) := []

namespace Collection

def add (past : Collection) (a : Attachment) : Collection :=
  if a.key ∈ past.seen then past else ⟨past.attached ++ [a], a.key :: past.seen⟩

def addAll (past : Collection) (as : List Attachment) : Collection := as.foldl add past

theorem addAll_append (past : Collection) (as bs : List Attachment) :
    past.addAll (as ++ bs) = (past.addAll as).addAll bs :=
  List.foldl_append

theorem attached_addAll (past : Collection) (as : List Attachment) :
    (past.addAll as).attached = past.attached ++ distinctFrom Attachment.key past.seen as := by
  induction as generalizing past with
  | nil => exact (List.append_nil _).symm
  | cons a rest ih =>
    rw [addAll, List.foldl_cons, ← addAll, ih, add, distinctFrom]
    by_cases hseen : a.key ∈ past.seen
    · rw [if_pos hseen, if_pos hseen]
    · rw [if_neg hseen, if_neg hseen]
      exact List.append_assoc _ [a] _

end Collection

/-- The visited ids of an expansion, and its conditions added to those that were there before. -/
def Expansion.collected (before : Collection) (past : Expansion) : List String × Collection :=
  (past.visited, before.addAll past.attached)

theorem Expansion.collected_enter (before : Collection) (past : Expansion) (t : Target) :
    (past.enter t).collected before =
      (t.id :: past.visited, (past.collected before).2.addAll t.ownAttachments) := by
  rw [collected, attached_enter, Collection.addAll_append]
  rfl

namespace Graph

/-- What an edge of `t` adds: `deeper` goes on with a static dependency, and `across` adds what a
dynamic or runtime one brings. -/
def collectEdge (g : Graph) (across : Collection → Target → Except ResolveError Collection)
    (deeper : List String × Collection → Target → Except ResolveError (List String × Collection))
    (t : Target) (past : List String × Collection) (edge : Edge) :
    Except ResolveError (List String × Collection) := do
  let dep ← g.follow t edge
  match edge.linkage with
  | .static => deeper past dep
  | .dynamic | .runtime => return (past.1, ← across past.2 dep)
  | .toolchain | .container => return past

/-- Adds the conditions of `t` and of what it links statically to those collected so far. -/
def collectFrom (g : Graph) (across : Collection → Target → Except ResolveError Collection) :
    (depth : Nat) → List String × Collection → Target →
      Except ResolveError (List String × Collection)
  | depth, past, t =>
    if t.id ∈ past.1 then return past else
      match depth with
      | 0 => throw (.cycleDetected t.id t.id)
      | depth + 1 =>
        t.deps.foldlM (g.collectEdge across (g.collectFrom across depth) t)
          (t.id :: past.1, past.2.addAll t.ownAttachments)

/-- What a dynamic or runtime dependency adds, with visited ids of its own. -/
def collectStatic (g : Graph) (past : Collection) (t : Target) : Except ResolveError Collection :=
  (·.2) <$> g.collectFrom (fun past _ => .ok past) g.size ([], past) t

def collect (g : Graph) (t : Target) : Except ResolveError (List Attachment) :=
  (·.2.attached) <$> g.collectFrom g.collectStatic g.size ([], {}) t

variable {g : Graph} {across : Collection → Target → Except ResolveError Collection}
  {linked : Target → Except ResolveError (List Target)}

/-- `across` adds the conditions of the targets that `linked` lists. -/
def AddsLinked (across : Collection → Target → Except ResolveError Collection)
    (linked : Target → Except ResolveError (List Target)) : Prop :=
  ∀ past t, across past t = (fun found => past.addAll (found.flatMap (·.ownAttachments))) <$> linked t

theorem collectEdge_collected (hacross : AddsLinked across linked) {before : Collection}
    {depth : Nat}
    (hdeeper : ∀ past dep, g.collectFrom across depth (Expansion.collected before past) dep =
      Expansion.collected before <$> g.expand linked depth past dep)
    (t : Target) (edge : Edge) (past : Expansion) :
    g.collectEdge across (g.collectFrom across depth) t (past.collected before) edge =
      Expansion.collected before <$> g.expandEdge linked depth t past edge := by
  rw [expandEdge, map_bind]
  refine bind_congr fun dep => ?_
  cases edge.linkage with
  | static => exact hdeeper past dep
  | dynamic | runtime =>
    dsimp only
    rw [hacross, map_bind, bind_map_left]
    refine bind_congr fun found => ?_
    rw [map_pure, Expansion.collected, Expansion.collected, Expansion.attached, Expansion.attached,
      List.flatMap_append, Collection.addAll_append]
  | toolchain | container => rfl

theorem collectFrom_collected (hacross : AddsLinked across linked) (before : Collection)
    (depth : Nat) (past : Expansion) (t : Target) :
    g.collectFrom across depth (past.collected before) t =
      Expansion.collected before <$> g.expand linked depth past t := by
  induction depth generalizing past t with
  | zero =>
    rw [collectFrom.eq_def]
    by_cases hid : t.id ∈ past.visited
    · rw [expand_of_visited hid]
      exact if_pos hid
    · rw [expand_zero hid]
      exact if_neg hid
  | succ depth ih =>
    rw [collectFrom.eq_def]
    by_cases hid : t.id ∈ past.visited
    · rw [expand_of_visited hid]
      exact if_pos hid
    · rw [expand_succ hid, ← Refusal.foldlM_map_state
        (fun edge _ past => collectEdge_collected hacross ih t edge past), Expansion.collected_enter]
      exact if_neg hid

theorem addsLinked_collectStatic (g : Graph) : AddsLinked g.collectStatic g.staticClosure := by
  intro past t
  have hnone : AddsLinked (fun past _ => .ok past) fun _ => .ok [] := fun _ _ => rfl
  have hcollect := collectFrom_collected (g := g) hnone past g.size {} t
  rw [collectStatic, staticClosure_eq_map, Functor.map_map]
  exact (congrArg ((·.2) <$> ·) hcollect).trans (Functor.map_map _ _ _)

/-- Collecting in one pass gives what is attached, in the same order, or the same error. -/
theorem attachments_eq_collect (g : Graph) (t : Target) : g.attachments t = g.collect t := by
  have hcollect := collectFrom_collected (g := g) (addsLinked_collectStatic g) {} g.size {} t
  have hfirsts : ∀ past : Expansion, firsts past.attached = (past.collected {}).2.attached :=
    fun past => (Collection.attached_addAll {} past.attached).symm
  calc g.attachments t
      = (fun past => firsts past.attached) <$> g.expand g.staticClosure g.size {} t := by
        rw [attachments, contributors_eq_map, bind_map_left]
        exact bind_pure_comp _ _
    _ = (fun past => (past.collected {}).2.attached) <$> g.expand g.staticClosure g.size {} t :=
        congrArg (· <$> _) (funext hfirsts)
    _ = g.collect t := by
        rw [collect, ← Functor.map_map (Expansion.collected {}) (·.2.attached), ← hcollect]
        rfl

end Graph

end LicenseNotice
