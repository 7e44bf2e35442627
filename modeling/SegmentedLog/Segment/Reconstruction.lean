import SegmentedLog.Disk.Action
import SegmentedLog.Segment.Session

/-! # Reconstructing a segment from its file

The entries of a file are taken into a new segment in order. Afterwards the file is brought in line
with what could be read: it goes if that is nothing, and what lies behind the last entry is cut off.
-/

namespace SegmentedLog

namespace Segment

def demand {α : Type} [DecidableEq α] (subject : String) (text : α → String)
    (expected actual : α) : Except Inconsistency Unit :=
  if expected = actual then .ok () else .error ⟨subject, text expected, text actual⟩

def indexText? : Option Nat → String
  | none => "None"
  | some index => s!"Some({index})"

/-- Whether the segment is what `count` entries read from `start` on make of it. The end is compared
with `last?` unless corruption cut the segment short. -/
def checkConsistency (seg : Segment) (start : UInt64) (count : Nat) (last? : Option Nat)
    (corrupted : Bool) : Except Inconsistency Unit := do
  demand "Segment start index" toString start seg.start
  demand "Number of records" toString count seg.index.size
  let last := start.toNat + count - 1
  demand "Segment end index + 1" toString (last + 1) seg.next.toNat
  if let some final := seg.index.last? then
    demand "Index at the last record" toString last final.index.toNat
    if let some initial := seg.index.first? then
      demand "Index at the first record" toString start initial.index
  unless corrupted do
    demand "End/last index" indexText? last? (some last)

end Segment

namespace Host

abbrev Step := EStateM Failure Host

/-- Works on a segment, which is lost if that fails. -/
def withSegment (seg : Segment) (m : Session.Step Unit) : Step Segment := fun host =>
  match m { host with segment := seg } with
  | .ok () s => .ok s.segment s.toHost
  | .error cause s => .error cause { s.toHost with refs := s.segment.drop s.refs }

/-- Shares an entry for as long as it takes the segment to take it in. -/
def takeRead (keep : Bool) (e : LogEntry) : Session.Step Unit := fun s =>
  let (r, refs) := s.refs.wrap e
  match Session.take .load r keep { s with refs } with
  | .ok () s => .ok () { s with refs := s.refs.release r }
  | .error cause s => .error cause { s with refs := s.refs.release r }

/-- Takes in what a scan read, unless the policy does not accept how the scan ended. -/
def takeScan (scan : Scan) (policy : CorruptionPolicy) (keep : Bool) : Session.Step Unit := do
  scan.entries.forM (takeRead keep)
  if let some (.fault cause) := scan.failure then throw (.fault cause)
  modify fun s => { s with
    metrics := { s.metrics with entriesRead := s.metrics.entriesRead + scan.entries.length } }
  if let .error cause := scan.settle policy then throw cause

def onDisk {α : Type} (m : Disk.Action α) : Step α := fun host =>
  match m host.disk with
  | .ok a disk => .ok a { host with disk }
  | .error cause disk => .error (.error (.io cause)) { host with disk }

def removeIfThere (path : String) : Step Unit := fun host =>
  match Disk.remove path host.disk with
  | .ok () disk => .ok () { host with disk }
  | .error .notFound disk => .ok () { host with disk }
  | .error cause disk => .error (.error (.io cause)) { host with disk }

def cutFile (path : String) (length : Nat) : Step Unit := do
  match (← get).disk.read path with
  | .error cause => throw (.error (.io cause))
  | .ok content => if length < content.length then onDisk (Disk.setLength path length)

def orLetGo (seg : Segment) (m : Step Unit) : Step Unit := fun host =>
  match m host with
  | .ok () host => .ok () host
  | .error cause host => .error cause { host with refs := seg.drop host.refs }

/-- Brings the file in line with the segment that `count` entries were taken into. Without any there
is no segment. -/
def reconcile (path : String) (range : SegmentRange) (count : Nat) (seg : Segment) :
    Step (Option Segment) := do
  if count = 0 then
    removeIfThere path
    pure none
  else
    orLetGo seg do
      cutFile path seg.fileSize
      let last? := if range.isOpen then seg.last?.map UInt64.toNat else some range.last.toNat
      let expected := (last?.map fun last => last + 1 - range.start.toNat).getD 0
      match seg.checkConsistency range.start count last? (count ≠ expected) with
      | .ok () => pure ()
      | .error cause => throw (.error (.inconsistent path cause))
    pure (some seg)

/-- Reconstructs the segment of `range` from the file at `path`. Entries are cached if the range is
open or they are to be kept, and the sink gets them in order. If there are none, neither is there a
segment, and the file is removed. -/
def loadSegment (context : SegmentContext) (path : String) (range : SegmentRange) (keep : Bool) :
    Step (Option Segment) := do
  match Segment.ofRange context range with
  | .error cause => throw (.fault cause)
  | .ok seg =>
    let scan := (← get).disk.scan path range context.maxEntrySize
    let seg ← withSegment seg (takeScan scan context.policy (keep || range.isOpen))
    reconcile path range scan.entries.length seg

end Host

end SegmentedLog
