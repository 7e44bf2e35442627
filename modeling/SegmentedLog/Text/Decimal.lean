/-! # Decimal words

The written form of a 64-bit number: an optional plus sign and one or more digits.
-/

namespace SegmentedLog.Decimal

def digit? (c : Char) : Option Nat :=
  if '0' ≤ c ∧ c ≤ '9' then some (c.toNat - '0'.toNat) else none

/-- The value of the digits behind those that make up `value`. -/
def valueFrom (value : Nat) : List Char → Option Nat
  | [] => some value
  | c :: cs => do valueFrom (10 * value + (← digit? c)) cs

/-- The number written in digits alone; there has to be one. -/
def unsigned? : List Char → Option Nat
  | [] => none
  | cs => valueFrom 0 cs

def parse? (cs : List Char) : Option UInt64 := do
  let value ← unsigned? (if cs.head? = some '+' then cs.tail else cs)
  if value < UInt64.size then some (UInt64.ofNat value) else none

def print (n : UInt64) : List Char := Nat.toDigits 10 n.toNat

end SegmentedLog.Decimal
