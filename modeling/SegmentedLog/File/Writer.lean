import SegmentedLog.Config
import SegmentedLog.Disk.Action
import SegmentedLog.File.Frame

/-! # Writing a segment file

A writer appends frames through a buffer. A frame that does not fit empties the buffer first, and
one as large as the buffer goes past it; so the file holds whole frames only.
-/

namespace SegmentedLog

structure Writer where
  file : FileId
  path : String
  sync : SyncPolicy
  /-- Where in the file the buffer will be written. -/
  offset : Nat
  buffered : Bytes := []
  position : Nat
  /-- Entries written since the bytes were last forced to the disk. -/
  unsynced : Nat := 0
  /-- How many bytes of the file were forced to the disk so far. -/
  forced : Nat := 0
deriving Repr

namespace Writer

def capacity : Nat := 8192

/-- Opens a segment file for appending, and gives a new or empty one its header. -/
def openOn (path : String) (sync : SyncPolicy) : EStateM SegmentError Disk Writer := fun disk =>
  match Disk.openOrCreate path disk with
  | .error cause disk => .error (.io cause) disk
  | .ok file disk =>
    let length := (disk.content file).length
    if length = 0 then
      .ok { file, path, sync, offset := headerSize, position := headerSize }
        (disk.setContent file magic)
    else if length < headerSize then .error (.corruption (.shortFile path length)) disk
    else .ok { file, path, sync, offset := length, position := length } disk

abbrev Step := StateM (Writer × Disk)

/-- Writes bytes to the file past the buffer. -/
def put (bytes : Bytes) : Step Unit :=
  modify fun (w, disk) =>
    ({ w with offset := w.offset + bytes.length }, disk.overwrite w.file w.offset bytes)

def flush : Step Unit := do
  let buffered := (← get).1.buffered
  if buffered ≠ [] then
    put buffered
    modify fun (w, disk) => ({ w with buffered := [] }, disk)

/-- Empties the buffer and forces the bytes to the disk. -/
def force : Step Unit := do
  flush
  modify fun (w, disk) => ({ w with unsynced := 0, forced := w.offset }, disk)

/-- Adds bytes to the buffer, or to the file if the buffer cannot take them. -/
def append (bytes : Bytes) : Step Unit := do
  if capacity < (← get).1.buffered.length + bytes.length then flush
  if capacity ≤ bytes.length then put bytes
  else modify fun (w, disk) => ({ w with buffered := w.buffered ++ bytes }, disk)

def SyncDue (sync : SyncPolicy) (unsynced : Nat) : Prop :=
  match sync with
  | .everyWrite => True
  | .everyEntries count => count ≤ unsynced

instance (sync : SyncPolicy) (unsynced : Nat) : Decidable (SyncDue sync unsynced) :=
  match sync with
  | .everyWrite => isTrue trivial
  | .everyEntries count => inferInstanceAs (Decidable (count ≤ unsynced))

def write (e : LogEntry) : Step Nat := do
  let frame := Frame.ofEntry e
  append frame
  modify fun (w, disk) =>
    ({ w with position := w.position + frame.length, unsynced := w.unsynced + 1 }, disk)
  let w := (← get).1
  if SyncDue w.sync w.unsynced then force
  pure frame.length

/-- The disk a writer leaves when it is let go. -/
def close (w : Writer) (disk : Disk) : Disk := (flush (w, disk)).2.2

end Writer

end SegmentedLog
