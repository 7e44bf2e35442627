import SegmentedLog.File.Opened
import SegmentedLog.Segment.Cache
import SegmentedLog.Segment.Host

/-! # Loading entries on demand

A loader serves a cache miss by one scan of the whole segment file, and caches every entry on the
way.
-/

namespace SegmentedLog

/-- What a segment takes from the directory it belongs to. -/
structure SegmentContext where
  dataDir : String
  policy : CorruptionPolicy
  maxEntrySize : Nat
deriving DecidableEq, Repr

def SegmentContext.file (context : SegmentContext) (range : SegmentRange) : String :=
  range.fileIn context.dataDir

structure Loader where
  context : SegmentContext
  loadingTimes : Nat := 0
deriving DecidableEq, Repr

structure Loading extends Host where
  loader : Loader
  cache : Cache
deriving Repr

namespace Loader

abbrev Step := EStateM Failure Loading

/-- Shares an entry that was read and caches it. The reference is kept if the entry is the wanted
one, which an earlier one then is no longer. -/
def receive (key : TermIndex) (found : Option EntryRef) (e : LogEntry) :
    Step (Option EntryRef) := do
  let s ← get
  let (r, refs) := s.refs.wrap e
  match s.cache.put refs e.key r .load with
  | .error cause =>
    set { s with refs := (refs.release r).releaseAll found.toList }
    throw (.fault cause)
  | .ok (cache, refs) =>
    if e.key = key then
      set { s with cache, refs := refs.releaseAll found.toList }
      pure (some r)
    else
      set { s with cache, refs := refs.release r }
      pure found

/-- Scans the file of `range` into the cache and hands out the entry under `key`. -/
def load (key : TermIndex) (range : SegmentRange) : Step EntryRef := do
  let s ← get
  let context := s.loader.context
  let path := context.file range
  let scan := s.disk.scan path range context.maxEntrySize
  let found ← scan.entries.foldlM (receive key) none
  let giveUp (cause : Failure) : Step EntryRef := do
    modify fun s => { s with refs := s.refs.releaseAll found.toList }
    throw cause
  if let some (.fault cause) := scan.failure then giveUp (.fault cause)
  else
    modify fun s => { s with
      metrics :=
        { segmentLoads := s.metrics.segmentLoads + 1
          entriesRead := s.metrics.entriesRead + scan.entries.length }
      loader := { s.loader with loadingTimes := s.loader.loadingTimes + 1 } }
    match scan.settle context.policy with
    | .error cause => giveUp cause
    | .ok count =>
      match found with
      | some r => pure r
      | none => throw (.error (.entryNotFound key path count))

end Loader

end SegmentedLog
