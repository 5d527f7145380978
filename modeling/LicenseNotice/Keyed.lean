import LicenseNotice.Distinct

/-! # Keyed entries in insertion order

Putting a value under a key replaces the one that was there, in its place, or adds a new entry at
the end. `get?` sees the first entry of a key, which is its only one in a list built by `put`.
-/

namespace LicenseNotice.Keyed

set_option autoImplicit false

variable {κ α : Type}

def get? [DecidableEq κ] (key : κ) (entries : List (κ × α)) : Option α :=
  entries.lookup key

/-- Puts a value under a key and gives back the one it replaces. -/
def exchange [DecidableEq κ] (key : κ) (value : α) :
    List (κ × α) → Option α × List (κ × α)
  | [] => (none, [(key, value)])
  | entry :: rest =>
    if entry.1 = key then (some entry.2, (key, value) :: rest)
    else
      let (replaced, rest) := exchange key value rest
      (replaced, entry :: rest)

def put [DecidableEq κ] (key : κ) (value : α) (entries : List (κ × α)) : List (κ × α) :=
  (exchange key value entries).2

/-- Changes the value under a key, taking `initial` for a key that is not there. -/
def modify [DecidableEq κ] (key : κ) (initial : α) (change : α → α) (entries : List (κ × α)) :
    List (κ × α) :=
  put key (change ((get? key entries).getD initial)) entries

/-- Entries put in order; of a repeated key the last value stays, at the first place. -/
def ofList [DecidableEq κ] (entries : List (κ × α)) : List (κ × α) :=
  entries.foldl (fun table entry => put entry.1 entry.2 table) []

def keys (entries : List (κ × α)) : List κ := entries.map (·.1)

def values (entries : List (κ × α)) : List α := entries.map (·.2)

def contains [DecidableEq κ] (key : κ) (entries : List (κ × α)) : Bool :=
  (get? key entries).isSome

variable [DecidableEq κ]

theorem get?_cons (key : κ) (entry : κ × α) (rest : List (κ × α)) :
    get? key (entry :: rest) = if entry.1 = key then some entry.2 else get? key rest := by
  obtain ⟨name, value⟩ := entry
  by_cases h : key = name
  · subst h
    simp [get?]
  · simp [get?, List.lookup_cons, beq_eq_false_iff_ne.mpr h, Ne.symm h]

theorem get?_map {β : Type} (key : κ) (change : α → β) (entries : List (κ × α)) :
    get? key (entries.map fun (name, value) => (name, change value)) =
      (get? key entries).map change := by
  induction entries with
  | nil => rfl
  | cons entry rest ih =>
    rw [List.map_cons, get?_cons, get?_cons, ih, apply_ite (Option.map change)]
    rfl

/-- What an exchange gives back is what a look-up finds. -/
theorem exchange_fst (key : κ) (value : α) (entries : List (κ × α)) :
    (exchange key value entries).1 = get? key entries := by
  induction entries with
  | nil => rfl
  | cons entry rest ih =>
    by_cases h : entry.1 = key
    · simp [exchange, get?_cons, h]
    · simp [exchange, get?_cons, h, ih]

theorem put_cons (key : κ) (value : α) (entry : κ × α) (rest : List (κ × α)) :
    put key value (entry :: rest) =
      if entry.1 = key then (key, value) :: rest else entry :: put key value rest := by
  by_cases h : entry.1 = key <;> simp [put, exchange, h]

theorem get?_put (key other : κ) (value : α) (entries : List (κ × α)) :
    get? other (put key value entries) = if key = other then some value else get? other entries := by
  induction entries with
  | nil => simp [put, exchange, get?_cons]
  | cons entry rest ih =>
    rw [put_cons, get?_cons]
    by_cases h : entry.1 = key
    · rw [if_pos h, get?_cons, h]
      by_cases hk : key = other <;> simp [hk]
    · rw [if_neg h, get?_cons, ih]
      by_cases ho : entry.1 = other
      · have hk : key ≠ other := fun hk => h (ho.trans hk.symm)
        simp [ho, hk]
      · simp [ho]

/-- A new key goes to the end; a known one keeps its place. -/
theorem keys_put (key : κ) (value : α) (entries : List (κ × α)) :
    keys (put key value entries) = addNew key (keys entries) := by
  rw [addNew]
  induction entries with
  | nil => simp [put, exchange, keys]
  | cons entry rest ih =>
    rw [put_cons]
    by_cases h : entry.1 = key
    · simp [keys, h]
    · have hm : key ∈ keys (entry :: rest) ↔ key ∈ keys rest := by simp [keys, Ne.symm h]
      rw [if_neg h, keys, List.map_cons, ← keys, ih]
      by_cases hr : key ∈ keys rest
      · rw [if_pos hr, if_pos (hm.mpr hr)]
        rfl
      · rw [if_neg hr, if_neg (fun hc => hr (hm.mp hc))]
        rfl

theorem put_of_not_mem {key : κ} {value : α} {entries : List (κ × α)} (h : key ∉ keys entries) :
    put key value entries = entries ++ [(key, value)] := by
  induction entries with
  | nil => rfl
  | cons entry rest ih =>
    obtain ⟨hfirst, hrest⟩ := not_or.mp (fun hm => h (List.mem_cons.mpr hm))
    rw [put_cons, if_neg (Ne.symm hfirst), ih hrest, List.cons_append]

theorem foldl_put_of_nodup {table entries : List (κ × α)} (unique : (keys (table ++ entries)).Nodup) :
    entries.foldl (fun table entry => put entry.1 entry.2 table) table = table ++ entries := by
  induction entries generalizing table with
  | nil => exact (List.append_nil table).symm
  | cons entry rest ih =>
    have hkeys : keys (table ++ entry :: rest) = keys table ++ entry.1 :: keys rest := by simp [keys]
    have hnew : entry.1 ∉ keys table := fun hmem =>
      (List.nodup_append.mp (hkeys ▸ unique)).2.2 entry.1 hmem entry.1 List.mem_cons_self rfl
    rw [List.append_cons] at unique
    rw [List.foldl_cons, put_of_not_mem hnew, ih unique, ← List.append_cons]

/-- Entries whose keys differ are all kept, in their order. -/
theorem ofList_of_nodup {entries : List (κ × α)} (unique : (keys entries).Nodup) :
    ofList entries = entries :=
  foldl_put_of_nodup unique

theorem mem_put {key : κ} {value : α} {entry : κ × α} {entries : List (κ × α)}
    (h : entry ∈ put key value entries) : entry = (key, value) ∨ entry ∈ entries := by
  induction entries with
  | nil => exact .inl (List.mem_singleton.mp h)
  | cons first rest ih =>
    rw [put_cons] at h
    split at h
    · exact (List.mem_cons.mp h).imp_right (List.mem_cons_of_mem _)
    · rcases List.mem_cons.mp h with rfl | h
      · exact .inr List.mem_cons_self
      · exact (ih h).imp_right (List.mem_cons_of_mem _)

theorem nodup_keys_put {key : κ} {value : α} {entries : List (κ × α)}
    (h : (keys entries).Nodup) : (keys (put key value entries)).Nodup :=
  keys_put key value entries ▸ nodup_addNew h

theorem keys_modify (key : κ) (initial : α) (change : α → α) (entries : List (κ × α)) :
    keys (modify key initial change entries) = addNew key (keys entries) :=
  keys_put key _ entries

theorem get?_modify (key other : κ) (initial : α) (change : α → α) (entries : List (κ × α)) :
    get? other (modify key initial change entries) =
      if key = other then some (change ((get? key entries).getD initial)) else get? other entries :=
  get?_put key other _ entries

theorem mem_of_get? {key : κ} {value : α} {entries : List (κ × α)}
    (h : get? key entries = some value) : (key, value) ∈ entries := by
  induction entries with
  | nil => cases h
  | cons entry rest ih =>
    rw [get?_cons] at h
    by_cases hk : entry.1 = key
    · rw [if_pos hk] at h
      cases h
      subst hk
      exact List.mem_cons_self
    · rw [if_neg hk] at h
      exact List.mem_cons_of_mem _ (ih h)

theorem get?_of_mem {key : κ} {value : α} {entries : List (κ × α)} (unique : (keys entries).Nodup)
    (h : (key, value) ∈ entries) : get? key entries = some value := by
  induction entries with
  | nil => cases h
  | cons entry rest ih =>
    obtain ⟨hfirst, hrest⟩ := List.nodup_cons.mp unique
    rw [get?_cons]
    rcases List.mem_cons.mp h with rfl | h
    · rw [if_pos rfl]
    · rw [if_neg, ih hrest h]
      intro hk
      exact hfirst (List.mem_map.mpr ⟨_, h, hk.symm⟩)

theorem contains_iff_mem_keys {key : κ} {entries : List (κ × α)} :
    contains key entries = true ↔ key ∈ keys entries := by
  rw [contains]
  induction entries with
  | nil => simp [get?, keys]
  | cons entry rest ih =>
    rw [get?_cons, keys, List.map_cons, List.mem_cons, ← keys, ← ih]
    by_cases hk : entry.1 = key
    · simp [hk]
    · simp [hk, Ne.symm hk]

theorem get?_eq_none_iff {key : κ} {entries : List (κ × α)} :
    get? key entries = none ↔ key ∉ keys entries := by
  rw [← contains_iff_mem_keys, contains, Option.not_isSome_iff_eq_none]

theorem mem_keys_of_get? {key : κ} {value : α} {entries : List (κ × α)}
    (h : get? key entries = some value) : key ∈ keys entries :=
  List.mem_map_of_mem (mem_of_get? h)

end LicenseNotice.Keyed
