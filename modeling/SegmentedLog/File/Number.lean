import SegmentedLog.File.Source

/-! # Reading variable-length numbers

A number ends with the first byte whose high bit is clear, which is at most the tenth. The value of
its digits counts modulo 2 ^ 64. An input that is at its end before the first byte has no number.
-/

namespace SegmentedLog.Source

/-- Reads the bytes of a number behind the first `taken`, whose digits sum to `sum`; at most `room`
more may come. -/
def numberFrom (room taken sum : Nat) : Reading (Option Nat) :=
  match room with
  | 0 => throw (.error (.corruption .overlongNumber))
  | room + 1 => do
    match ← next? with
    | none =>
      if taken = 0 then pure none
      else throw (.error (.corruption (.truncatedNumber taken)))
    | some b =>
      let sum := sum + Varint.digit b * 128 ^ taken
      if Varint.isLast b then pure (some (sum % UInt64.size))
      else numberFrom room (taken + 1) sum

def number? : Reading (Option Nat) := numberFrom Varint.maxSize 0 0

end SegmentedLog.Source
