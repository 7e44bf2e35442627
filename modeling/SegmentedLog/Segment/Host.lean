import SegmentedLog.Disk.Basic
import SegmentedLog.Entry.Shared
import SegmentedLog.Failure

/-! # What segments work on

Segments share a disk, the reference counts of entries, statistics, and a sink that is handed the
entries that were accepted.
-/

namespace SegmentedLog

structure Metrics where
  segmentLoads : Nat := 0
  entriesRead : Nat := 0
deriving DecidableEq, Repr

/-- Where accepted entries are passed on to. -/
inductive Sink where
  | absent
  /-- What it received, oldest first. -/
  | listening (received : List LogEntry)
  | disconnected
deriving DecidableEq, Repr

namespace Sink

def accept (sink : Sink) (e : LogEntry) : Sink :=
  match sink with
  | .listening received => .listening (received ++ [e])
  | .absent | .disconnected => sink

def received : Sink → List LogEntry
  | .listening received => received
  | .absent | .disconnected => []

end Sink

structure Host where
  disk : Disk := {}
  refs : RefCounts := {}
  metrics : Metrics := {}
  sink : Sink := .absent
deriving Repr

end SegmentedLog
