import Mathlib.Data.String.Basic
import Mathlib.Tactic.SplitIfs

/-! # Text order is byte order

Texts are compared character by character. In UTF-8 a smaller character has smaller bytes, whatever
follows, so that is the order of their bytes.
-/

namespace LicenseNotice.Text

set_option autoImplicit false

def bytes (text : String) : List UInt8 := text.toUTF8.data.toList

theorem bytes_eq_flatMap (text : String) : bytes text = text.toList.flatMap String.utf8EncodeChar := by
  have h : text.toUTF8 = (text.toList.flatMap String.utf8EncodeChar).toByteArray :=
    String.utf8Encode_toList.symm
  rw [bytes, h, List.toList_data_toByteArray]

theorem scalar_lt (c : Char) : c.val.toNat < 0x110000 := by
  rcases c.valid with h | ⟨_, h⟩
  · exact Nat.lt_trans h (by decide)
  · exact h

theorem encode_append_lt {c d : Char} (h : c < d) (s t : List UInt8) :
    String.utf8EncodeChar c ++ s < String.utf8EncodeChar d ++ t := by
  have hlt : c.val.toNat < d.val.toNat := h
  have hd := scalar_lt d
  unfold String.utf8EncodeChar
  dsimp only
  generalize c.val.toNat = m at *
  generalize d.val.toNat = n at *
  -- One case for each pair of lengths; a longer code never comes first.
  split_ifs <;> simp only [List.cons_append, List.nil_append, List.cons_lt_cons_iff,
    UInt8.lt_iff_toNat_lt, ← UInt8.toNat_inj, UInt8.toNat_ofNat'] <;>
    simp (disch := omega) only [Nat.mod_eq_of_lt] <;> omega

theorem flatMap_encode_lt {cs ds : List Char} (h : cs < ds) :
    cs.flatMap String.utf8EncodeChar < ds.flatMap String.utf8EncodeChar := by
  induction h with
  | @nil d ds =>
    cases hds : (d :: ds).flatMap String.utf8EncodeChar with
    | nil => simp at hds
    | cons byte rest => exact List.nil_lt_cons byte rest
  | @cons c cs ds _ ih => exact List.append_left_lt ih
  | rel h => exact encode_append_lt h _ _

theorem bytes_lt_iff (a b : String) : bytes a < bytes b ↔ a < b := by
  have hmono : ∀ {a b : String}, a < b → bytes a < bytes b := fun h => by
    rw [bytes_eq_flatMap, bytes_eq_flatMap]
    exact flatMap_encode_lt h
  refine ⟨fun h => ?_, hmono⟩
  rcases lt_trichotomy a b with hlt | rfl | hgt
  · exact hlt
  · exact absurd h (List.lt_irrefl _)
  · exact absurd h (List.lt_asymm (hmono hgt))

theorem bytes_compare_lt {a b : String} (h : compare a b = .lt) : bytes a < bytes b :=
  (bytes_lt_iff a b).mpr (compare_lt_iff_lt.mp h)

end LicenseNotice.Text
