import Mathlib

-- ASCII is UTF-8.

namespace Ascii

theorem utf8EncodeChar_ofNat {byte : UInt8} (h : byte < 128) :
    String.utf8EncodeChar (Char.ofNat byte.toNat) = [byte] := by
  have hlt : byte.toNat < 128 := h
  have hv : (Char.ofNat byte.toNat).val.toNat = byte.toNat := by
    rw [Char.ofNat, dif_pos (Or.inl (by omega))]
    simp [Char.ofNatAux]
  rw [String.utf8EncodeChar]
  simp only [hv]
  rw [if_pos (by omega), UInt8.ofNat_toNat]

theorem flatMap_utf8EncodeChar {bytes : List UInt8} (h : ∀ byte ∈ bytes, byte < 128) :
    (bytes.map fun byte => Char.ofNat byte.toNat).flatMap String.utf8EncodeChar = bytes := by
  induction bytes
  case nil => rfl
  case cons byte bytes hi =>
    rw [List.forall_mem_cons] at h
    rw [List.map_cons, List.flatMap_cons, utf8EncodeChar_ofNat h.left, hi h.right]
    rfl

theorem validateUTF8_of_ascii {bytes : List UInt8} (h : ∀ byte ∈ bytes, byte < 128) :
    ByteArray.validateUTF8 ⟨bytes.toArray⟩ = true := by
  refine ByteArray.validateUTF8_eq_true_iff.mpr
    ⟨bytes.map fun byte => Char.ofNat byte.toNat, ByteArray.ext ?_⟩
  rw [List.utf8Encode, flatMap_utf8EncodeChar h]
  exact List.data_toByteArray.symm

end Ascii
