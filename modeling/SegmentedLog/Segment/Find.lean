import SegmentedLog.Segment.Basic

/-! # Finding the segment of an index

Binary search in a list of segments that is sorted by start and does not overlap.
-/

namespace SegmentedLog

/-- Narrows the search to one of the `size` positions from `base` on. While more than one is left,
the lower half goes unless the segment in the middle lies behind the index. -/
def narrow (segments : Array Segment) (index : UInt64) (base size : Nat) : Nat :=
  if size ≤ 1 then base
  else
    let half := size / 2
    let base :=
      match segments[base + half]? with
      | some seg => if seg.compareTo index = .gt then base else base + half
      | none => base
    narrow segments index base (size - half)
termination_by size
decreasing_by omega

/-- The position of the segment that contains an index. -/
def findSegment? (segments : Array Segment) (index : UInt64) : Option Nat :=
  let position := narrow segments index 0 segments.size
  match segments[position]? with
  | some seg => if seg.compareTo index = .eq then some position else none
  | none => none

end SegmentedLog
