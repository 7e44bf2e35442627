/-! # Fixed-width little-endian numbers

A number is laid out as a fixed count of bytes, least significant first. Reading back and laying out
again gives the same bytes.
-/

namespace SegmentedLog

abbrev Bytes := List UInt8

namespace LittleEndian

/-- The low `width` bytes of `n`, least significant first. -/
def encode : (width : Nat) → (n : Nat) → Bytes
  | 0, _ => []
  | width + 1, n => UInt8.ofNat n :: encode width (n / 256)

def decode : Bytes → Nat
  | [] => 0
  | b :: bs => b.toNat + 256 * decode bs

@[simp] theorem length_encode (width n : Nat) : (encode width n).length = width := by
  induction width generalizing n with
  | zero => rfl
  | succ width ih => simp [encode, ih]

theorem encode_decode (bs : Bytes) : encode bs.length (decode bs) = bs := by
  induction bs with
  | nil => rfl
  | cons b bs ih =>
    have hb := b.toNat_lt
    have hlow : UInt8.ofNat (b.toNat + 256 * decode bs) = b := by
      apply UInt8.toNat_inj.mp
      simp
    have hhigh : (b.toNat + 256 * decode bs) / 256 = decode bs := by omega
    simp only [decode, List.length_cons, encode, hlow, hhigh, ih]

end LittleEndian

end SegmentedLog
