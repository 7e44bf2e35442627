import SegmentedLog.Bytes.LittleEndian

/-! # CRC-32

The reflected cyclic redundancy check with polynomial `0xEDB88320`, all-ones start and complemented
result. Every frame of a segment file ends in the checksum of its data.
-/

namespace SegmentedLog.Checksum

/-- One step of the division: the register moves down one bit and absorbs the polynomial when the
bit that leaves is set. -/
@[inline] def shift (register : UInt32) : UInt32 :=
  if register &&& 1 = 1 then (register >>> 1) ^^^ 0xEDB88320 else register >>> 1

def shift8 (register : UInt32) : UInt32 :=
  shift (shift (shift (shift (shift (shift (shift (shift register)))))))

/-- Takes one byte into the register, low bit first. -/
def absorb (register : UInt32) (b : UInt8) : UInt32 :=
  shift8 (register ^^^ b.toUInt32)

/-- The checksum of a byte string. -/
def crc32 (data : Bytes) : UInt32 :=
  data.foldl absorb 0xFFFFFFFF ^^^ 0xFFFFFFFF

def size : Nat := 4

def trailer (data : Bytes) : Bytes := LittleEndian.encode size (crc32 data).toNat

example : crc32 [0x31, 0x32, 0x33, 0x34, 0x35, 0x36, 0x37, 0x38, 0x39] = 0xCBF43926 := by
  decide +kernel

end SegmentedLog.Checksum
