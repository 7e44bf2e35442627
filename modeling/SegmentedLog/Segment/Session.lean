import SegmentedLog.Segment.Basic

/-! # Working with a segment

Every operation of a segment is a step of a session: the segment together with what it works on.
Where an operation breaks a rule of use, what it had done by then stays done.
-/

namespace SegmentedLog

structure Session extends Host where
  segment : Segment
deriving Repr

namespace Session

/-- A step of a segment; what was done before a failure stays done. -/
abbrev Step := EStateM Failure Session

def update (f : Segment → Segment) : Step Unit :=
  modify fun s => { s with segment := f s.segment }

def onIndex {α : Type} (m : SegmentIndex.Step α) : Step α := fun s =>
  match m s.segment.index with
  | .ok a index => .ok a { s with segment := { s.segment with index } }
  | .error cause index => .error (.fault cause) { s with segment := { s.segment with index } }

def onCache (f : Cache → RefCounts → Cache × RefCounts) : Step Unit :=
  modify fun s =>
    let (cache, refs) := f s.segment.cache s.refs
    { s with segment := { s.segment with cache }, refs }

def guarded {α : Type} (result : Except Fault α) : Step α :=
  match result with
  | .ok a => pure a
  | .error cause => throw (.fault cause)

def cacheEntry (r : EntryRef) (purpose : SizePurpose) : Step Unit := do
  let s ← get
  let (cache, refs) ← guarded (s.segment.cache.put s.refs r.entry.key r purpose)
  set { s with segment := { s.segment with cache }, refs }

/-- Takes an entry in at the end: a record, a place in the cache if it is to be kept there, its
share of the file, and its index, in this order. Then the sink gets it. -/
def take (purpose : SizePurpose) (r : EntryRef) (keep : Bool) : Step Unit := do
  let index ← onIndex (SegmentIndex.append (.of (← get).segment.fileSize r.entry))
  if keep then cacheEntry r purpose
  let size ← guarded (r.entry.sizeFor purpose)
  update fun seg => { seg with fileSize := seg.fileSize + size }
  let next ← guarded (nextIndex index)
  update fun seg => { seg with next }
  modify fun s => { s with sink := s.sink.accept r.entry }

def append (purpose : SizePurpose) (r : EntryRef) : Step Unit := do
  let seg := (← get).segment
  if seg.isOpen then take purpose r true else throw (.fault (.appendToClosed seg.name))

/-- The cached entry under a key, with a reference to it taken. -/
def cached? (key : TermIndex) : Step (Option EntryRef) := do
  let s ← get
  match s.segment.cache.get? s.refs key with
  | none => pure none
  | some (r, refs) =>
    set { s with refs }
    pure (some r)

def onLoader {α : Type} (m : Loader.Step α) : Step α := fun s =>
  let resume (l : Loading) : Session :=
    { l with segment := { s.segment with cache := l.cache, loader := l.loader } }
  match m { s with loader := s.segment.loader, cache := s.segment.cache } with
  | .ok a l => .ok a (resume l)
  | .error cause l => .error cause (resume l)

/-- Tells that the wanted entry could not be read, if the failure does not tell so itself. -/
def explain {α : Type} (key : TermIndex) (m : Step α) : Step α := fun s =>
  match m s with
  | .error (.error cause) s =>
    match cause.errorClass with
    | .entryRead _ => .error (.error cause) s
    | _ => .error (.error (.loadFailed key s.segment.name cause)) s
  | result => result

def load (key : TermIndex) : Step EntryRef := do
  match ← cached? key with
  | some r => pure r
  | none =>
    let seg := (← get).segment
    if seg.Contains key.index then explain key (onLoader (Loader.load key seg.range))
    else throw (.error (.outsideSegment key seg.name))

/-- Takes off `n` records from the end, the last of which has the index before `next`. -/
def takeOff (next : Nat) : (n : Nat) → Step Unit
  | 0 => pure ()
  | n + 1 => do
    let removed ← onIndex SegmentIndex.removeLast
    let expected := UInt64.ofNat (next - 1)
    if removed.index ≠ expected then
      throw (.fault (.removedOther expected removed.index))
    onCache fun cache refs => cache.remove refs removed.key
    update fun seg => { seg with fileSize := removed.offset }
    takeOff (next - 1) n

/-- Removes the entries from `first` on and closes the segment. -/
def truncate (first : UInt64) : Step Unit := do
  let seg := (← get).segment
  if seg.Contains first then
    takeOff seg.next.toNat (seg.next.toNat - first.toNat)
    update fun seg => { seg with isOpen := false, next := first }
  else throw (.fault (.truncateOutside first seg.start seg.next))

def close : Step Unit := do
  let seg := (← get).segment
  if seg.isOpen then update fun seg => { seg with isOpen := false }
  else throw (.fault (.closeOfClosed seg.start))

/-- Drops all records and closes the cache for good. -/
def clear : Step Unit := do
  update fun seg => { seg with index := seg.index.clear }
  onCache Cache.close
  update fun seg => { seg with next := seg.start }

def evict : Step Unit := onCache Cache.evict

end Session

end SegmentedLog
