import SegmentedLog.Segment.Index
import SegmentedLog.Segment.Loader

/-! # Segments

A segment is the in-memory side of one segment file: the index of its entries, a cache of their
contents, and the range of indices it covers. It grows at its end while it is open; truncating cuts
off entries at the end and closes it.
-/

namespace SegmentedLog

structure Segment where
  isOpen : Bool
  /-- One past the last index. -/
  next : UInt64
  /-- The offset the next frame goes to, a number without bound. -/
  fileSize : Nat := headerSize
  index : SegmentIndex
  cache : Cache := {}
  loader : Loader
deriving Repr

namespace Segment

def context (seg : Segment) : SegmentContext := seg.loader.context

def start (seg : Segment) : UInt64 := seg.index.start

/-- An empty segment that takes entries from `start` on. -/
def opening (context : SegmentContext) (start : UInt64) : Segment :=
  { isOpen := true, next := start, index := { start }, loader := { context } }

/-- A closed segment from `start` to `last` that has no records yet. -/
def closed (context : SegmentContext) (start last : UInt64) : Except Fault Segment := do
  if last < start then throw (.endBeforeStart last start)
  let next ← nextIndex last
  .ok { isOpen := false, next, index := { start }, loader := { context } }

/-- The segment of a range, without records. -/
def ofRange (context : SegmentContext) (range : SegmentRange) : Except Fault Segment :=
  if range.isOpen then .ok (opening context range.start)
  else closed context range.start range.last

def size (seg : Segment) : Nat := seg.next.toNat - seg.start.toNat

def isEmpty (seg : Segment) : Bool := seg.size = 0

/-- The last index, if any is covered. -/
def last? (seg : Segment) : Option UInt64 :=
  if seg.start < seg.next then some (seg.next - 1) else none

def Contains (seg : Segment) (index : UInt64) : Prop := seg.start ≤ index ∧ index < seg.next

instance (seg : Segment) (index : UInt64) : Decidable (seg.Contains index) :=
  inferInstanceAs (Decidable (_ ∧ _))

/-- Where the segment lies as seen from an index: before it, at it, or after it. -/
def compareTo (seg : Segment) (index : UInt64) : Ordering :=
  if seg.Contains index then .eq
  else if seg.next ≤ index then .lt
  else .gt

def hasCache (seg : Segment) : Bool := seg.isOpen || 0 < seg.cache.size

def range (seg : Segment) : SegmentRange :=
  if seg.isOpen then .opening seg.start
  else .closed seg.start (if seg.next = 0 then 0 else seg.next - 1)

def file (seg : Segment) : String := seg.context.file seg.range

def name (seg : Segment) : String :=
  if seg.isOpen then s!"log_inprogress_{seg.start}"
  else s!"log-{seg.start}_{(seg.next.toNat : Int) - 1}"

instance : ToString Segment := ⟨name⟩

def describe (seg : Segment) : String :=
  s!"Segment \x7b start_index: {seg.start}, next_index: {seg.next}, is_open: {seg.isOpen}, " ++
    s!"records: {seg.index.size}, total_file_size: {seg.fileSize}, " ++
    s!"cache_size: {seg.cache.size} \x7d"

def record? (seg : Segment) (index : UInt64) : Option LogRecord := seg.index.get? index

def records (seg : Segment) : List LogRecord := seg.index.records

def lastKey? (seg : Segment) : Option TermIndex := seg.index.last?.map (·.key)

/-- The reference counts once the segment is gone. -/
def drop (seg : Segment) (refs : RefCounts) : RefCounts := refs.releaseAll seg.cache.refsHeld

end Segment

end SegmentedLog
