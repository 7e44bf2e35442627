import Mathlib
import SegmentedLog.Proofs.Reading

/-! # What checksums detect

A step of the register can be undone, so registers that differ stay different whatever they take in
next. A byte that is changed therefore changes the checksum, and data in front of its checksum does
not stay so when a byte of either is altered.
-/

namespace SegmentedLog.Checksum

/-! ## Steps of the register -/

theorem low_bit (register : UInt32) :
    register &&& 1 = 1 ↔ register.toBitVec.getLsbD 0 = true := by
  rw [← UInt32.toBitVec_inj, UInt32.toBitVec_and]
  change register.toBitVec &&& 1#32 = 1#32 ↔ _
  rw [BitVec.and_one_eq_setWidth_ofBool_getLsbD]
  cases register.toBitVec.getLsbD 0 <;> decide

/-- A step moves every bit one down, and takes the polynomial in if the lowest was set. -/
theorem getLsbD_shift (register : UInt32) (i : Nat) :
    (shift register).toBitVec.getLsbD i = (register.toBitVec.getLsbD (i + 1) ^^
      (register.toBitVec.getLsbD 0 && (0xEDB88320#32).getLsbD i)) := by
  have hdown : (register >>> 1).toBitVec.getLsbD i = register.toBitVec.getLsbD (i + 1) := by
    rw [UInt32.toBitVec_shiftRight]
    change (register.toBitVec >>> 1).getLsbD i = _
    rw [BitVec.getLsbD_ushiftRight, Nat.add_comm]
  unfold shift
  split
  · next h =>
    rw [UInt32.toBitVec_xor, BitVec.getLsbD_xor, hdown, (low_bit register).mp h, Bool.true_and]
    rfl
  · next h =>
    rw [hdown, Bool.eq_false_iff.mpr (mt (low_bit register).mpr h), Bool.false_and, Bool.xor_false]

/-- The top bit of the polynomial is set, so the top bit after a step is the lowest before it. -/
theorem shift_injective : Function.Injective shift := by
  intro a b h
  have hbits (i : Nat) := congrArg (fun register : UInt32 => register.toBitVec.getLsbD i) h
  simp only [getLsbD_shift] at hbits
  have hlow : a.toBitVec.getLsbD 0 = b.toBitVec.getLsbD 0 := by
    have htop := hbits 31
    rw [BitVec.getLsbD_of_ge _ _ le_rfl, BitVec.getLsbD_of_ge _ _ le_rfl] at htop
    simpa using htop
  apply UInt32.toBitVec_inj.mp
  apply BitVec.eq_of_getLsbD_eq
  intro i _
  cases i with
  | zero => exact hlow
  | succ i =>
    have hi := hbits i
    rw [hlow] at hi
    exact Bool.xor_left_inj.mp hi

theorem shift8_injective : Function.Injective shift8 := by
  have h := shift_injective
  exact h.comp (h.comp (h.comp (h.comp (h.comp (h.comp (h.comp h))))))

theorem absorb_injective (b : UInt8) : Function.Injective (absorb · b) := by
  intro a a' h
  exact (UInt32.xor_left_inj _).mp (shift8_injective h)

theorem absorb_byte_injective (register : UInt32) : Function.Injective (absorb register) := by
  intro b b' h
  have hword : b.toUInt32 = b'.toUInt32 := (UInt32.xor_right_inj _).mp (shift8_injective h)
  exact UInt8.toNat_inj.mp (by simpa using congrArg UInt32.toNat hword)

theorem foldl_absorb_injective (bytes : Bytes) : Function.Injective (bytes.foldl absorb) := by
  induction bytes with
  | nil => exact Function.injective_id
  | cons b bytes ih => exact ih.comp (absorb_injective b)

/-! ## Altered bytes -/

/-- A byte that is changed changes the checksum, wherever it stands. -/
theorem crc32_ne_of_byte_ne (front back : Bytes) {b b' : UInt8} (h : b ≠ b') :
    crc32 (front ++ b :: back) ≠ crc32 (front ++ b' :: back) := by
  intro hsame
  have hregisters := (UInt32.xor_left_inj _).mp hsame
  rw [List.foldl_append, List.foldl_append] at hregisters
  exact h (absorb_byte_injective _ (foldl_absorb_injective back hregisters))

variable {mask : UInt8}

theorem xor_ne (hmask : mask ≠ 0) (b : UInt8) : b ≠ b ^^^ mask := by
  intro h
  rw [← UInt8.xor_right_inj b, ← UInt8.xor_assoc, UInt8.xor_self, UInt8.zero_xor] at h
  exact hmask h.symm

theorem modify_xor_ne (hmask : mask ≠ 0) {bytes : Bytes} {j : Nat} (hj : j < bytes.length) :
    bytes.modify j (· ^^^ mask) ≠ bytes := by
  intro h
  have hbyte := congrArg (·[j]?) h
  simp only [List.getElem?_modify, if_true, List.getElem?_eq_getElem hj] at hbyte
  exact xor_ne hmask _ (Option.some.inj hbyte).symm

theorem crc32_modify_ne (hmask : mask ≠ 0) {data : Bytes} {j : Nat} (hj : j < data.length) :
    crc32 (data.modify j (· ^^^ mask)) ≠ crc32 data := by
  rw [List.modify_eq_take_cons_drop hj]
  conv_rhs => rw [← List.take_append_drop j data, List.drop_eq_getElem_cons hj]
  exact (crc32_ne_of_byte_ne _ _ (xor_ne hmask _)).symm

/-- Whatever data and checksum an altered byte makes, they do not belong together. -/
theorem modify_ne_sealed (hmask : mask ≠ 0) {data other : Bytes} {j : Nat}
    (hj : j < (data ++ trailer data).length) (hlength : other.length = data.length) :
    (data ++ trailer data).modify j (· ^^^ mask) ≠ other ++ trailer other := by
  intro h
  have hdata := congrArg (List.take data.length) h
  rw [List.take_modify, List.take_left, ← hlength, List.take_left] at hdata
  have htrailer := congrArg (List.drop data.length) h
  conv_rhs at htrailer => rw [← hlength, List.drop_left]
  by_cases hin : j < data.length
  · rw [List.drop_modify_of_lt _ _ _ _ hin, List.drop_left] at htrailer
    have hcrc : crc32 data = crc32 other := by
      rw [← decode_trailer data, htrailer, decode_trailer]
    rw [← hdata] at hcrc
    exact crc32_modify_ne hmask hin hcrc.symm
  · have hout := not_lt.mp hin
    rw [List.modify_eq_self hout] at hdata
    rw [List.drop_modify_of_ge _ _ _ _ hout, List.drop_left, ← hdata] at htrailer
    refine modify_xor_ne hmask ?_ htrailer
    rw [List.length_append] at hj
    omega

end SegmentedLog.Checksum
