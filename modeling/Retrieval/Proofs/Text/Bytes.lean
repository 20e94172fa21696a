import Mathlib.Data.List.Lex
import Mathlib.Tactic.SplitIfs

/-!
# The order of texts

Texts are compared character by character. That is the order of their bytes as well
(`Text.lt_iff_bytes_lt`): where the encodings of two characters differ first, the smaller byte is
that of the smaller character, and neither encoding ends before.
-/

set_option autoImplicit false

namespace Retrieval.Text

/-- The bytes of a text's encoding in UTF-8. -/
def bytes (text : String) : List UInt8 := text.toUTF8.data.toList

theorem bytes_eq_flatMap (text : String) :
    bytes text = text.toList.flatMap String.utf8EncodeChar := by
  rw [bytes, String.toUTF8, ← String.utf8Encode_toList, List.utf8Encode]
  simp

theorem cons_ofNat_lt {a b : Nat} {rest rest' : List UInt8} (hb : b < 256) (hle : a ≤ b)
    (h : a = b → rest < rest') : UInt8.ofNat a :: rest < UInt8.ofNat b :: rest' := by
  rw [List.cons_lt_cons_iff]
  rcases Nat.lt_or_eq_of_le hle with hlt | rfl
  · left
    rw [UInt8.lt_iff_toNat_lt, UInt8.toNat_ofNat', UInt8.toNat_ofNat']
    omega
  · exact .inr ⟨rfl, h rfl⟩

/-- Of two characters the smaller one has the smaller encoding, whatever follows. -/
theorem encode_lt {c d : Char} (h : c < d) (rest rest' : List UInt8) :
    String.utf8EncodeChar c ++ rest < String.utf8EncodeChar d ++ rest' := by
  have hlt : c.val.toNat < d.val.toNat := UInt32.lt_iff_toNat_lt.mp (Char.lt_def.mp h)
  have hvalid : d.val.toNat < 0x110000 := by
    have h := d.valid
    simp only [UInt32.isValidChar, Nat.isValidChar] at h
    omega
  simp only [String.utf8EncodeChar]
  generalize c.val.toNat = n at *
  generalize d.val.toNat = m at *
  -- The lengths of the two encodings; the first one is not longer.
  split_ifs <;> try omega
  all_goals
    simp only [List.cons_append, List.nil_append]
    repeat refine cons_ofNat_lt (by omega) (by omega) fun _ => ?_
    exfalso
    omega

theorem flatMap_encode_lt {cs ds : List Char} (h : cs < ds) :
    cs.flatMap String.utf8EncodeChar < ds.flatMap String.utf8EncodeChar := by
  induction h with
  | @nil d ds =>
    have hne : (d :: ds).flatMap String.utf8EncodeChar ≠ [] := by simp
    obtain ⟨byte, more, hcons⟩ := List.exists_cons_of_ne_nil hne
    rw [hcons]
    exact .nil
  | @cons c cs ds _ ih =>
    rw [List.flatMap_cons, List.flatMap_cons]
    exact List.Lex.append_left _ ih _
  | @rel c cs d ds hlt =>
    rw [List.flatMap_cons, List.flatMap_cons]
    exact encode_lt hlt _ _

/-- Comparing texts by their characters and by their bytes is the same. -/
theorem lt_iff_bytes_lt {s t : String} : s < t ↔ bytes s < bytes t := by
  have hbytes {s t : String} (h : s < t) : bytes s < bytes t := by
    rw [bytes_eq_flatMap, bytes_eq_flatMap]
    exact flatMap_encode_lt (String.lt_iff.mp h)
  refine ⟨hbytes, fun h => Decidable.byContradiction fun hle => ?_⟩
  by_cases hgt : t < s
  · exact List.lt_asymm h (hbytes hgt)
  · obtain rfl : s = t := String.le_antisymm (String.not_lt.mp hgt) (String.not_lt.mp hle)
    exact List.lt_irrefl _ h

end Retrieval.Text
