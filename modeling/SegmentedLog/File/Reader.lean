import SegmentedLog.Config
import SegmentedLog.File.Frame
import SegmentedLog.File.Number
import SegmentedLog.Range

/-! # Reading a segment file entry by entry

A reader hands out the entries of a file until the data ends: at the end of the file, at zero
padding, or at the first entry past the end of a closed range. After a failure it goes on from
wherever its input stands.
-/

namespace SegmentedLog

structure Reader where
  path : String
  range : SegmentRange
  maxEntrySize : Nat
  source : Source
  /-- The offset just past the last entry handed out. -/
  position : Nat := headerSize
  done : Bool := false
deriving Repr

namespace Reader

/-- No buffer can be this large. -/
def capacityLimit : Nat := 0x8000000000000000

/-- Reads the header. A file without a full header, or with zeros in its place, holds no entries. -/
def openOn (path : String) (range : SegmentRange) (maxEntrySize : Nat) (source : Source) :
    Except Failure Reader :=
  match Source.take? headerSize source with
  | .error cause _ => .error cause
  | .ok none source => .ok { path, range, maxEntrySize, source, done := true }
  | .ok (some header) source =>
    if header.all (· = 0) then .ok { path, range, maxEntrySize, source, done := true }
    else if header = magic then .ok { path, range, maxEntrySize, source }
    else .error (.error (.corruption (.foreignHeader path header)))

/-- A step of a reader; on failure what was consumed stays consumed. -/
abbrev Step := EStateM Failure Reader

def input {α : Type} (read : Source.Reading α) : Step α := fun r =>
  match read r.source with
  | .ok a source => .ok a { r with source }
  | .error cause source => .error cause { r with source }

def corrupted {α : Type} (cause : Corruption) : Step α := throw (.error (.corruption cause))

def finish : Step (Option LogEntry) := do
  modify fun r => { r with done := true }
  pure none

def accept (data : Bytes) : Step (Option LogEntry) := do
  let r ← get
  match LogEntry.decode data with
  | .error cause => throw (.error (.decode cause))
  | .ok entry =>
    if entry.index < r.range.start then
      corrupted (.beforeStart entry.index r.range.start r.path)
    else if r.range.EndsBefore entry.index then finish
    else do
      set { r with position := r.position + frameSize data.length }
      pure (some entry)

def frame (size : Nat) : Step (Option LogEntry) := do
  let r ← get
  if r.maxEntrySize < size then
    corrupted (.oversizedEntry r.position r.path size r.maxEntrySize)
  else if capacityLimit ≤ size then throw (.fault .capacity)
  else
    match ← input (Source.take? size) with
    | none => corrupted (.truncatedEntry r.position r.path)
    | some data =>
      match ← input (Source.take? Checksum.size) with
      | none => corrupted (.truncatedChecksum r.position r.path)
      | some trailer =>
        let stored := UInt32.ofNat (LittleEndian.decode trailer)
        let computed := Checksum.crc32 data
        if stored = computed then accept data
        else corrupted (.checksumMismatch r.position r.path stored computed)

/-- Everything behind a zero length must be zero. -/
def padding : Step (Option LogEntry) := do
  modify fun r => { r with done := true }
  let r ← get
  if ← input Source.onlyZeros then pure none
  else corrupted (.dirtyPadding r.position r.path)

def next : Step (Option LogEntry) := do
  if (← get).done then pure none
  else
    match ← input Source.number? with
    | none => finish
    | some 0 => padding
    | some size => frame size

/-- What a failure leaves of an iteration: an error ends the data. -/
def stopped (r : Reader) : Failure → Reader
  | .error _ => { r with done := true }
  | .fault _ => r

/-- Like `next`, but after an error the data is at its end. -/
def nextOrStop : Step (Option LogEntry) := fun r =>
  match next r with
  | .error cause r => .error cause (r.stopped cause)
  | result => result

end Reader

end SegmentedLog
