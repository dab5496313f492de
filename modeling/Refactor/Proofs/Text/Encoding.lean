import Refactor.Disk.Bytes
import Mathlib.Data.List.Basic

/-!
# The bytes of texts

The bytes of a text are the bytes of its characters, one after the other. Characters below 128 are one byte and all other
characters have larger bytes only, so what such a byte separates in the text it separates in the bytes.

* `Bytes.toList_ofText` — the bytes of a text, character by character
* `Bytes.text?_toList_ofText` — bytes of a text are read as that text
* `Bytes.utf8EncodeChar_of_lt`, `Bytes.mem_utf8EncodeChar` — one byte for one character, and no such byte in another
-/

namespace Refactor.Bytes

theorem toList_loop_eq (b : ByteArray) (i : Nat) (read : List UInt8) :
    ByteArray.toList.loop b i read = read.reverse ++ b.data.toList.drop i := by
  fun_induction ByteArray.toList.loop b i read with
  | case1 i read hi ih =>
    have hlt : i < b.data.toList.length := by simpa using hi
    rw [ih, List.drop_eq_getElem_cons hlt]
    simp [ByteArray.get!, hi]
  | case2 i read hi =>
    rw [List.drop_eq_nil_of_le (by simpa using Nat.le_of_not_lt hi), List.append_nil]

theorem toList_eq (b : ByteArray) : b.toList = b.data.toList := by
  rw [ByteArray.toList, toList_loop_eq]
  rfl

theorem toList_ofText (s : String) : (ofText s).toList = s.toList.flatMap String.utf8EncodeChar := by
  rw [toList_eq, ofText, String.toUTF8_eq_toByteArray, ← String.utf8Encode_toList, List.utf8Encode,
    List.toList_data_toByteArray]

theorem text?_ofText (s : String) : text? (ofText s) = some s :=
  dif_pos s.isValidUTF8

theorem ofText_of_text? {b : ByteArray} {s : String} (h : text? b = some s) : ofText s = b := by
  unfold text? String.fromUTF8? at h
  split at h
  · cases h
    rfl
  · cases h

theorem text?_toList_ofText (s : String) : text? ⟨(ofText s).toList.toArray⟩ = some s := by
  rw [toList_eq, Array.toArray_toList]
  exact text?_ofText s

theorem utf8EncodeChar_of_lt {c : Char} (h : c.toNat < 128) : String.utf8EncodeChar c = [UInt8.ofNat c.toNat] :=
  if_pos (Nat.le_of_lt_succ h)

theorem utf8EncodeChar_ofNat : ∀ n < 128, String.utf8EncodeChar (Char.ofNat n) = [UInt8.ofNat n] := by
  decide

/-- Every other character has bytes from 128 on only. -/
theorem le_of_mem_utf8EncodeChar {c : Char} (hc : 128 ≤ c.toNat) {b : UInt8} (h : b ∈ String.utf8EncodeChar c) :
    128 ≤ b.toNat := by
  have hv : ¬ c.val.toNat ≤ 0x7f := Nat.not_le_of_lt hc
  unfold String.utf8EncodeChar at h
  simp only [hv, if_false] at h
  split at h
  · simp only [List.mem_cons, List.not_mem_nil, or_false] at h
    rcases h with rfl | rfl <;> simp only [UInt8.toNat_ofNat'] <;> omega
  · split at h <;> simp only [List.mem_cons, List.not_mem_nil, or_false] at h
    · rcases h with rfl | rfl | rfl <;> simp only [UInt8.toNat_ofNat'] <;> omega
    · rcases h with rfl | rfl | rfl | rfl <;> simp only [UInt8.toNat_ofNat'] <;> omega

/-- A byte below 128 stands only where its character stands. -/
theorem mem_utf8EncodeChar_iff {c d : Char} (hd : d.toNat < 128) :
    UInt8.ofNat d.toNat ∈ String.utf8EncodeChar c ↔ c = d := by
  have hbyte : (UInt8.ofNat d.toNat).toNat = d.toNat := UInt8.toNat_ofNat_of_lt' (Nat.lt_trans hd (by decide))
  refine ⟨fun h => ?_, fun h => by rw [h, utf8EncodeChar_of_lt hd, List.mem_singleton]⟩
  by_cases hc : c.toNat < 128
  · have hcbyte : (UInt8.ofNat c.toNat).toNat = c.toNat := UInt8.toNat_ofNat_of_lt' (Nat.lt_trans hc (by decide))
    rw [utf8EncodeChar_of_lt hc, List.mem_singleton] at h
    rw [← Char.ofNat_toNat c, ← Char.ofNat_toNat d, ← hbyte, ← hcbyte, h]
  · have hle := le_of_mem_utf8EncodeChar (Nat.le_of_not_lt hc) h
    omega

end Refactor.Bytes
