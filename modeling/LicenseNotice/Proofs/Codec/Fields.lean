import LicenseNotice.Codec.Dialect
import LicenseNotice.Proofs.Json.RoundTrip

/-! # Fields of written records

A record is written with the fields that have a value. Read back by name, each field gives what was
written there, and one without a value gives nothing.
-/

namespace LicenseNotice

set_option autoImplicit false

open Codec

namespace Datum

theorem plain_list_map {α : Type} {write : α → Datum} (h : ∀ a, Plain (write a)) (as : List α) :
    Plain (.list (as.map write)) := by
  refine .list fun item hitem => ?_
  obtain ⟨a, -, rfl⟩ := List.mem_map.mp hitem
  exact h a

/-- What is written, if anything is, is plain. -/
def PlainIfGiven (value : Option Datum) : Prop := ∀ d ∈ value, Plain d

@[simp] theorem plainIfGiven_some {d : Datum} : PlainIfGiven (some d) ↔ Plain d := by
  simp [PlainIfGiven]

@[simp] theorem plainIfGiven_optionalText (value : Option String) :
    PlainIfGiven (optionalText value) := by
  intro d hd
  obtain ⟨text, -, rfl⟩ := Option.map_eq_some_iff.mp hd
  exact .text text

theorem plain_ofFields {fields : List (String × Option Datum)}
    (h : ∀ field ∈ fields, PlainIfGiven field.2) : Plain (ofFields fields) := by
  refine .record fun field hfield => ?_
  obtain ⟨⟨name, value⟩, hmem, hvalue⟩ := List.mem_filterMap.mp hfield
  obtain ⟨d, hd, rfl⟩ := Option.map_eq_some_iff.mp hvalue
  exact h _ hmem d hd

end Datum

namespace Codec.Fields

variable {α : Type} {fields : List (String × Option Datum)} {names : List String} {name : String}

/-- The fields that have a value, by name. -/
def written (fields : List (String × Option Datum)) : Fields where
  entries := fields.filterMap fun (name, value) => value.map (name, ·)
  byPosition := false

theorem ofFields_eq (fields : List (String × Option Datum)) :
    Datum.ofFields fields = .record (written fields).entries := rfl

@[simp] theorem byPosition_written : (written fields).byPosition = false := rfl

@[simp] theorem get?_written_nil (name : String) : (written []).get? name = none := rfl

@[simp] theorem get?_written_cons (field : String × Option Datum) (rest : List (String × Option Datum))
    (name : String) : (written (field :: rest)).get? name =
      if name = field.1 then field.2.or ((written rest).get? name) else (written rest).get? name := by
  obtain ⟨first, _ | d⟩ := field
  · simp [written, get?]
  · by_cases h : name = first
    · simp [written, get?, h]
    · simp [written, get?, h, List.lookup_cons, beq_eq_false_iff_ne.mpr h]

theorem names_written_sublist (fields : List (String × Option Datum)) :
    ((written fields).entries.map (·.1)).Sublist (fields.map (·.1)) := by
  induction fields with
  | nil => exact .slnil
  | cons field rest ih =>
    obtain ⟨name, _ | d⟩ := field
    · exact ih.cons name
    · exact ih.cons_cons name

/-- A record that is written with distinct known names is read with all its fields. -/
theorem of?_ofFields (dialect : Dialect) (closed : Bool) (unique : (fields.map (·.1)).Nodup)
    (known : ∀ field ∈ fields, field.1 ∈ names) :
    of? dialect names closed (.ofFields fields) = some (written fields) := by
  have hknown : (written fields).entries.filter (fun field => names.contains field.1) =
      (written fields).entries := by
    refine List.filter_eq_self.mpr fun field hfield => ?_
    obtain ⟨source, hsource, hname⟩ := List.mem_map.mp
      ((names_written_sublist fields).subset (List.mem_map_of_mem hfield))
    exact List.contains_iff_mem.mpr (hname ▸ known source hsource)
  have hunique : ((written fields).entries.map (·.1)).Nodup :=
    unique.sublist (names_written_sublist fields)
  rw [ofFields_eq, of?]
  simp only [hknown, if_pos hunique, Nat.lt_irrefl, and_false, if_false]
  rfl

theorem orElse_eq (fields : Fields) (name : String) (read : Datum → Option α) (fallback : α) :
    fields.orElse name read fallback = ((fields.get? name).map read).getD (some fallback) := by
  rw [orElse]
  cases fields.get? name <;> rfl

@[simp] theorem getD_nullable_text (value : Option String) :
    ((optionalText value).map (nullable text?)).getD (some none) = some value := by
  cases value <;> rfl

end Codec.Fields

end LicenseNotice
