import SegmentedLog.Failure

/-! # Configuration -/

namespace SegmentedLog

/-- What to do about malformed data in a segment file. -/
inductive CorruptionPolicy where
  | strict
  | tolerant
deriving DecidableEq, Repr

namespace CorruptionPolicy

def name : CorruptionPolicy → String
  | .strict => "exception"
  | .tolerant => "warn_and_return"

/-- Reads a policy's name, whatever its case. -/
def parse (text : String) : Except SegmentError CorruptionPolicy :=
  match text.map Char.toLower with
  | "exception" | "strict" => .ok .strict
  | "warn_and_return" | "tolerant" => .ok .tolerant
  | other => .error (.config (.unknownPolicy other))

end CorruptionPolicy

/-- When a writer forces its bytes to the disk. -/
inductive SyncPolicy where
  | everyWrite
  /-- As soon as this many entries are not yet forced. -/
  | everyEntries (count : Nat)
deriving DecidableEq, Repr

def defaultMaxEntrySize : Nat := 32 * 1024 * 1024

structure Config where
  dataDir : String := "./logsegment_data"
  policy : CorruptionPolicy := .strict
  maxEntrySize : Nat := defaultMaxEntrySize
  sync : SyncPolicy := .everyEntries 100
  /-- Whether entries of reconstructed closed segments stay cached. -/
  keepCached : Bool := false
deriving DecidableEq, Repr

end SegmentedLog
