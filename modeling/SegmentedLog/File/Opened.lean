import SegmentedLog.Disk.Lookup
import SegmentedLog.File.Scan

/-! # Segment files on a disk

A reader of a file on a disk keeps the file, whatever becomes of its name, and sees what is written
to it later behind the bytes it has fetched.
-/

namespace SegmentedLog

namespace Disk

def source (disk : Disk) : Node → Source
  | .directory _ => { pending := [], ending := some .isDirectory }
  | .file id => { pending := disk.content id }

def scan (disk : Disk) (path : String) (range : SegmentRange) (maxEntrySize : Nat) : Scan :=
  match disk.find path with
  | .error cause => .failed (.error (.io cause))
  | .ok node => Scan.ofSource path range maxEntrySize (disk.source node)

end Disk

structure OpenedReader where
  reader : Reader
  node : Node
deriving Repr

namespace OpenedReader

def openAt (disk : Disk) (path : String) (range : SegmentRange) (maxEntrySize : Nat) :
    Except Failure OpenedReader :=
  match disk.find path with
  | .error cause => .error (.error (.io cause))
  | .ok node => do
    let reader ← Reader.openOn path range maxEntrySize (disk.source node)
    .ok { reader, node }

/-- The reader with the bytes the file has now. -/
def refreshed (o : OpenedReader) (disk : Disk) : Reader :=
  { o.reader with source := o.reader.source.refresh (disk.source o.node).pending }

/-- Takes a step of the reader on the file as it is now. -/
def step {α : Type} (disk : Disk) (m : Reader.Step α) : EStateM Failure OpenedReader α := fun o =>
  match m (o.refreshed disk) with
  | .ok a reader => .ok a { o with reader }
  | .error cause reader => .error cause { o with reader }

end OpenedReader

end SegmentedLog
