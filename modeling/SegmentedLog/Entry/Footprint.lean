import SegmentedLog.Bytes.Checksum
import SegmentedLog.Bytes.Varint
import SegmentedLog.Entry.Codec

/-! # Space an entry takes in a file

A frame is the length of the encoded entry, the entry, and the checksum. Sizes are computed for a
purpose; the purposes that concern entries from or for a file admit no state machine data.
-/

namespace SegmentedLog

/-- What the size of an entry is wanted for. -/
inductive SizePurpose where
  | load
  | removal
  | fullness
  /-- Appending an entry whose state machine data is kept elsewhere. -/
  | strippedAppend
  /-- Appending an entry that may carry state machine data. -/
  | wholeAppend
deriving DecidableEq, Repr

namespace SizePurpose

def name : SizePurpose → String
  | .load => "LoadSegmentFile"
  | .removal => "RemoveCache"
  | .fullness => "CheckSegmentFileFull"
  | .strippedAppend => "WriteCacheWithStateMachineCache"
  | .wholeAppend => "WriteCacheWithoutStateMachineCache"

def admitsStateData : SizePurpose → Bool
  | .removal | .wholeAppend => true
  | .load | .fullness | .strippedAppend => false

def Admits (purpose : SizePurpose) (e : LogEntry) : Prop :=
  purpose.admitsStateData = true ∨ e.hasStateData = false

instance (purpose : SizePurpose) (e : LogEntry) : Decidable (purpose.Admits e) :=
  inferInstanceAs (Decidable (_ ∨ _))

end SizePurpose

/-- The frame length for `size` bytes of data. -/
def frameSize (size : Nat) : Nat := size + Varint.size size + Checksum.size

/-- The space the entry would take, state machine data included. -/
def LogEntry.footprint (e : LogEntry) : Nat := frameSize e.encodedSize

end SegmentedLog
