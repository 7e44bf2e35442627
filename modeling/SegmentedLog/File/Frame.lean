import SegmentedLog.Entry.Footprint

/-! # The segment file format

A file is the magic followed by one frame per entry. A frame is the length of the encoded entry, the
encoded entry, and the checksum of it. Zeros may follow the last frame.
-/

namespace SegmentedLog

def magic : Bytes := [0x52, 0x41, 0x46, 0x54, 0x53, 0x45, 0x47, 0x31]

/-- The header is the magic alone. -/
def headerSize : Nat := magic.length

namespace Frame

def around (data : Bytes) : Bytes :=
  Varint.encode data.length ++ (data ++ Checksum.trailer data)

/-- The frame of an entry as a writer lays it out: state machine data stays behind. -/
def ofEntry (e : LogEntry) : Bytes := around e.stripped.encode

theorem length_around (data : Bytes) : (around data).length = frameSize data.length := by
  simp [around, frameSize, Varint.length_encode, Checksum.trailer]
  omega

theorem length_ofEntry (e : LogEntry) : (ofEntry e).length = e.stripped.footprint := by
  rw [ofEntry, length_around, LogEntry.length_encode, LogEntry.footprint]

end Frame

def fileImage (entries : List LogEntry) : Bytes := magic ++ entries.flatMap Frame.ofEntry

end SegmentedLog
