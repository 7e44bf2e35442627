import SegmentedLog.Text.Hexadecimal

/-! # Quoted bytes

Bytes are shown as text between quotes. Printable ASCII stands for itself, a few control characters
and the quote and backslash are escaped by name, and every other byte by its two hexadecimal digits.
-/

namespace SegmentedLog.Quoted

def escape (b : UInt8) : String :=
  if b = 0x0A then "\\n"
  else if b = 0x0D then "\\r"
  else if b = 0x09 then "\\t"
  else if b = 0x5C then "\\\\"
  else if b = 0x22 then "\\\""
  else if b = 0x00 then "\\0"
  else if 0x20 ≤ b ∧ b < 0x7F then String.singleton (Char.ofNat b.toNat)
  else "\\x" ++ Hexadecimal.padded 2 b.toNat

def ofBytes (bs : Bytes) : String := "b\"" ++ String.join (bs.map escape) ++ "\""

end SegmentedLog.Quoted
