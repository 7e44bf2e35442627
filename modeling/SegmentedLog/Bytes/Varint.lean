import SegmentedLog.Bytes.LittleEndian

/-! # Variable-length numbers

A number is written in base 128, low digit first; every byte but the last has its high bit set.
`size` is the length of the written form, told from the number's magnitude alone.
-/

namespace SegmentedLog.Varint

def maxSize : Nat := 10

def encode (n : Nat) : Bytes :=
  if n < 128 then [UInt8.ofNat n] else UInt8.ofNat (n % 128 + 128) :: encode (n / 128)

/-- One byte for every started group of seven bits. -/
def size (n : Nat) : Nat := n.log2 / 7 + 1

/-- The base-128 digit a byte carries. -/
def digit (b : UInt8) : Nat := b.toNat % 128

def isLast (b : UInt8) : Bool := b < 128

theorem length_encode (n : Nat) : (encode n).length = size n := by
  fun_induction encode n with
  | case1 n h =>
    have : n.log2 < 7 := by
      by_cases h0 : n = 0
      · simp [h0]
      · exact (Nat.log2_lt h0).mpr h
    simp only [List.length_singleton, size]
    omega
  | case2 n h ih =>
    have hlog : n.log2 = (n / 128).log2 + 7 := by
      have h0 : n / 128 ≠ 0 := by omega
      have hn : n ≠ 0 := by omega
      have lower := Nat.log2_self_le h0
      have upper := Nat.lt_log2_self (n := n / 128)
      have ge : (n / 128).log2 + 7 ≤ n.log2 := by
        rw [Nat.le_log2 hn, Nat.pow_add]
        omega
      have lt : n.log2 < (n / 128).log2 + 7 + 1 := by
        rw [Nat.log2_lt hn, show (n / 128).log2 + 7 + 1 = (n / 128).log2 + 1 + 7 by omega,
          Nat.pow_add]
        omega
      omega
    simp only [List.length_cons, ih, size, hlog]
    omega

end SegmentedLog.Varint
