import SegmentedLog.Bytes.LittleEndian

/-! # Hexadecimal text -/

namespace SegmentedLog.Hexadecimal

/-- At least `width` lowercase digits, zeros in front. -/
def padded (width n : Nat) : String :=
  String.ofList ((Nat.toDigits 16 n).leftpad width '0')

def ofBytes (bs : Bytes) : String :=
  String.join (bs.map fun b => padded 2 b.toNat)

end SegmentedLog.Hexadecimal
