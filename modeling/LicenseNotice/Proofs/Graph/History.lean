import Mathlib.Data.Finset.Card
import Mathlib.Data.List.Induction
import LicenseNotice.Proofs.Graph.Lookup

/-! # Graphs by their history

A graph comes from an empty one by inserting targets and by removing all conditions, at any points.
What was done tells the graph: its targets stand in the order in which their ids were first inserted,
and under an id stands what was inserted there last, without conditions if they were removed since.
-/

namespace LicenseNotice

set_option autoImplicit false

def Target.withoutConditions (t : Target) : Target := { t with conditions := [] }

namespace Graph

inductive Operation where
  | insert (t : Target)
  | removeConditions
  deriving DecidableEq, Repr

namespace Operation

def apply (g : Graph) : Operation → Graph
  | insert t => (g.insert t).2
  | removeConditions => g.withoutConditions

def insertedId? : Operation → Option String
  | insert t => some t.id
  | removeConditions => none

end Operation

/-- What an empty graph has become after the operations. -/
def after (outputRoot : String) (history : List Operation) : Graph :=
  history.foldl Operation.apply (empty outputRoot)

def insertedIds (history : List Operation) : List String := history.filterMap (·.insertedId?)

/-- What is left of a target after later operations that do not insert under its id. -/
def leftSince (since : List Operation) (t : Target) : Target :=
  if .removeConditions ∈ since then t.withoutConditions else t

/-- `t` is what is left of the target last inserted under `id`. -/
def LastInserted (history : List Operation) (id : String) (t : Target) : Prop :=
  ∃ before u since, history = before ++ .insert u :: since ∧ u.id = id ∧ id ∉ insertedIds since ∧
    t = leftSince since u

variable {g : Graph} {t u : Target} {id : String} {history since : List Operation}

theorem insertedIds_concat (history : List Operation) (op : Operation) :
    insertedIds (history ++ [op]) = insertedIds history ++ op.insertedId?.toList := by
  rw [insertedIds, List.filterMap_append]
  cases h : op.insertedId? <;> simp [h, insertedIds]

theorem mem_insertedIds_insert :
    id ∈ insertedIds (.insert t :: since) ↔ id = t.id ∨ id ∈ insertedIds since :=
  List.mem_cons

theorem leftSince_nil (t : Target) : leftSince [] t = t := if_neg List.not_mem_nil

theorem leftSince_insert (u : Target) (since : List Operation) (t : Target) :
    leftSince (.insert u :: since) t = leftSince since t := by
  simp [leftSince]

theorem leftSince_removeConditions (since : List Operation) (t : Target) :
    leftSince (.removeConditions :: since) t = leftSince since t.withoutConditions := by
  simp [leftSince, Target.withoutConditions]

/-! What one operation does -/

theorem get?_insert (g : Graph) (t : Target) (id : String) :
    (g.insert t).2.get? id = if t.id = id then some t else g.get? id :=
  Keyed.get?_put t.id id t g.entries

theorem get?_withoutConditions (g : Graph) (id : String) :
    g.withoutConditions.get? id = (g.get? id).map Target.withoutConditions :=
  Keyed.get?_map id Target.withoutConditions g.entries

theorem keys_withoutConditions (g : Graph) :
    Keyed.keys g.withoutConditions.entries = Keyed.keys g.entries := by
  rw [Keyed.keys, withoutConditions, List.map_map]
  rfl

protected theorem KeyedById.withoutConditions (hg : g.KeyedById) : g.withoutConditions.KeyedById := by
  refine ⟨fun entry hentry => ?_, keys_withoutConditions g ▸ hg.2⟩
  obtain ⟨stored, hstored, rfl⟩ := List.mem_map.mp hentry
  exact hg.1 stored hstored

theorem keyedById_apply (hg : g.KeyedById) (op : Operation) : (op.apply g).KeyedById := by
  cases op with
  | insert t => exact hg.insert t
  | removeConditions => exact hg.withoutConditions

theorem outputRoot_apply (g : Graph) (op : Operation) : (op.apply g).outputRoot = g.outputRoot := by
  cases op <;> rfl

theorem keys_apply (g : Graph) (op : Operation) : Keyed.keys (op.apply g).entries =
    op.insertedId?.elim (Keyed.keys g.entries) (addNew · (Keyed.keys g.entries)) := by
  cases op with
  | insert t => exact Keyed.keys_put t.id t g.entries
  | removeConditions => exact keys_withoutConditions g

/-! What a history does -/

theorem after_concat (outputRoot : String) (history : List Operation) (op : Operation) :
    after outputRoot (history ++ [op]) = op.apply (after outputRoot history) := by
  rw [after, List.foldl_concat]
  rfl

theorem keyedById_after (outputRoot : String) (history : List Operation) :
    (after outputRoot history).KeyedById := by
  induction history using List.reverseRecOn with
  | nil => exact .empty outputRoot
  | append_singleton history op ih =>
    rw [after_concat]
    exact keyedById_apply ih op

theorem outputRoot_after (outputRoot : String) (history : List Operation) :
    (after outputRoot history).outputRoot = outputRoot := by
  induction history using List.reverseRecOn with
  | nil => rfl
  | append_singleton history op ih => rw [after_concat, outputRoot_apply, ih]

/-- Ids are kept in the order in which they were first inserted. -/
theorem keys_after (outputRoot : String) (history : List Operation) :
    Keyed.keys (after outputRoot history).entries = distinct (insertedIds history) := by
  induction history using List.reverseRecOn with
  | nil => rfl
  | append_singleton history op ih =>
    rw [after_concat, keys_apply, ih, insertedIds_concat]
    cases op.insertedId? with
    | none => exact congrArg distinct (List.append_nil _).symm
    | some id => exact (distinct_concat _ id).symm

/-- Operations that do not insert under an id leave the target there, at most without conditions. -/
theorem get?_foldl_of_not_inserted (g : Graph) (h : id ∉ insertedIds since) :
    (since.foldl Operation.apply g).get? id = (g.get? id).map (leftSince since) := by
  -- From the front and over every graph: the first operation gives the graph for the rest.
  induction since generalizing g with
  | nil => rw [funext leftSince_nil, Option.map_id_fun', List.foldl_nil]; rfl
  | cons op rest ih =>
    cases op with
    | insert t =>
      obtain ⟨hid, hrest⟩ := not_or.mp (mt mem_insertedIds_insert.mpr h)
      rw [List.foldl_cons, ih _ hrest, Operation.apply, get?_insert, if_neg (Ne.symm hid),
        funext (leftSince_insert t rest)]
    | removeConditions =>
      rw [List.foldl_cons, ih _ h, Operation.apply, get?_withoutConditions, Option.map_map]
      exact congrArg (Option.map · (g.get? id)) (funext (leftSince_removeConditions rest)).symm

theorem exists_last_insertion (h : id ∈ insertedIds history) : ∃ before u since,
    history = before ++ .insert u :: since ∧ u.id = id ∧ id ∉ insertedIds since := by
  induction history with
  | nil => cases h
  | cons op rest ih =>
    by_cases hrest : id ∈ insertedIds rest
    · obtain ⟨before, u, since, rfl, hid, hsince⟩ := ih hrest
      exact ⟨op :: before, u, since, rfl, hid, hsince⟩
    · cases op with
      | insert u =>
        have hid : id = u.id := (mem_insertedIds_insert.mp h).resolve_right hrest
        exact ⟨[], u, rest, rfl, hid.symm, hrest⟩
      | removeConditions => exact absurd h hrest

theorem get?_after_of_lastInserted (outputRoot : String) (h : LastInserted history id t) :
    (after outputRoot history).get? id = some t := by
  obtain ⟨before, u, since, rfl, rfl, hsince, rfl⟩ := h
  rw [after, List.foldl_append, List.foldl_cons, get?_foldl_of_not_inserted _ hsince,
    Operation.apply, get?_insert, if_pos rfl, Option.map_some]

theorem get?_after_eq_none_iff (outputRoot : String) :
    (after outputRoot history).get? id = none ↔ id ∉ insertedIds history := by
  rw [get?, Keyed.get?_eq_none_iff, keys_after, mem_distinct]

theorem get?_after_eq_some_iff (outputRoot : String) :
    (after outputRoot history).get? id = some t ↔ LastInserted history id t := by
  refine ⟨fun h => ?_, get?_after_of_lastInserted outputRoot⟩
  have hid : id ∈ insertedIds history := by
    by_contra hid
    rw [(get?_after_eq_none_iff outputRoot).mpr hid] at h
    cases h
  obtain ⟨before, u, since, hhistory, hu, hsince⟩ := exists_last_insertion hid
  have hlast : LastInserted history id (leftSince since u) :=
    ⟨before, u, since, hhistory, hu, hsince, rfl⟩
  rw [get?_after_of_lastInserted outputRoot hlast] at h
  exact Option.some.inj h ▸ hlast

theorem size_after (outputRoot : String) (history : List Operation) :
    (after outputRoot history).size = (insertedIds history).toFinset.card := by
  have hids : (Keyed.keys (after outputRoot history).entries).toFinset =
      (insertedIds history).toFinset := by
    ext id
    rw [List.mem_toFinset, List.mem_toFinset, keys_after, mem_distinct]
  rw [← hids, List.toFinset_card_of_nodup (keyedById_after outputRoot history).2, Keyed.keys,
    List.length_map, size]

/-- Whatever is inserted, and whenever the conditions are removed, every target is stored under its
own id and no id twice; the targets stand in the order of the first insertions, as many as there are
ids; a look-up finds what was last inserted, without conditions exactly if they were removed since,
and an insertion gives back what a look-up found before it. -/
theorem after_spec (outputRoot : String) (history : List Operation) :
    (after outputRoot history).outputRoot = outputRoot ∧
    (after outputRoot history).KeyedById ∧
    (after outputRoot history).targets.map (·.id) = distinct (insertedIds history) ∧
    (∀ id t, (after outputRoot history).get? id = some t ↔ LastInserted history id t) ∧
    (∀ id, (after outputRoot history).get? id = none ↔ id ∉ insertedIds history) ∧
    (∀ t, (after outputRoot history).insert t =
      ((after outputRoot history).get? t.id, after outputRoot (history ++ [.insert t]))) ∧
    (after outputRoot history).size = (insertedIds history).toFinset.card ∧
    ∀ targets, ofTargets outputRoot targets = after outputRoot (targets.map .insert) := by
  have hg := keyedById_after outputRoot history
  refine ⟨outputRoot_after outputRoot history, hg, hg.ids_targets.trans (keys_after outputRoot history),
    fun id t => get?_after_eq_some_iff outputRoot, fun id => get?_after_eq_none_iff outputRoot,
    fun t => ?_, size_after outputRoot history, fun targets => ?_⟩
  · exact Prod.ext (Keyed.exchange_fst t.id t _) (after_concat outputRoot history (.insert t)).symm
  · rw [after, List.foldl_map]
    rfl

-- The second "app" takes the place of the first and keeps the conditions it came with.
example :
    let lib : Target := { id := "lib", installName := "lib.so", conditions := [⟨.notice, none, none⟩] }
    let app : Target := { id := "app", installName := "app", conditions := [⟨.notice, none, none⟩] }
    (after "out" [.insert app, .insert lib, .removeConditions, .insert app]).targets =
      [app, lib.withoutConditions] := by
  decide

end Graph

end LicenseNotice
