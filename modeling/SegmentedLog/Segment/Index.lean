import SegmentedLog.Failure

/-! # The index of a segment

The index maps log indices to the records that locate the entries in the file. Records are kept in
ascending order; appending and taking off at the end keep their indices consecutive.
-/

namespace SegmentedLog

/-- Where an entry starts in the file, and its header. -/
structure LogRecord where
  offset : Nat
  header : EntryHeader
deriving DecidableEq, Repr

namespace LogRecord

def of (offset : Nat) (e : LogEntry) : LogRecord := ⟨offset, .of e⟩

def key (r : LogRecord) : TermIndex := r.header.key

def index (r : LogRecord) : UInt64 := r.header.key.index

/-- The offset just past the frame. -/
def stop (r : LogRecord) : Nat := r.offset + frameSize r.header.size

end LogRecord

structure SegmentIndex where
  start : UInt64
  /-- In ascending order of their indices. -/
  records : List LogRecord := []
deriving DecidableEq, Repr

namespace SegmentIndex

def size (ix : SegmentIndex) : Nat := ix.records.length

def isEmpty (ix : SegmentIndex) : Bool := ix.records.isEmpty

def first? (ix : SegmentIndex) : Option LogRecord := ix.records.head?

def last? (ix : SegmentIndex) : Option LogRecord := ix.records.getLast?

def get? (ix : SegmentIndex) (index : UInt64) : Option LogRecord :=
  ix.records.find? (·.index = index)

/-- Puts a record in its place, and tells which one stood there. -/
def insertRecord (r : LogRecord) : List LogRecord → Option LogRecord × List LogRecord
  | [] => (none, [r])
  | r' :: rs =>
    if r.index < r'.index then (none, r :: r' :: rs)
    else if r.index = r'.index then (some r', r :: rs)
    else
      let (previous, rs) := insertRecord r rs
      (previous, r' :: rs)

abbrev Step := EStateM Fault SegmentIndex

def checkNext (ix : SegmentIndex) (index : UInt64) : Except Fault Unit :=
  match ix.last? with
  | none => if index = ix.start then .ok () else .error (.gapAtStart ix.start index)
  | some last =>
    match nextIndex last.index with
    | .error cause => .error cause
    | .ok expected =>
      if index = expected then .ok () else .error (.gapAfterLast last.index index)

/-- Appends a record right behind the last one, and tells its index. -/
def append (r : LogRecord) : Step UInt64 := do
  let ix ← get
  match ix.checkNext r.index with
  | .error cause => throw cause
  | .ok () =>
    let (previous, records) := insertRecord r ix.records
    set { ix with records }
    if previous.isSome then throw (.duplicateRecord r.index)
    pure r.index

def removeLast : Step LogRecord := do
  let ix ← get
  match ix.last? with
  | none => throw .emptyIndex
  | some last =>
    set { ix with records := ix.records.dropLast }
    pure last

def clear (ix : SegmentIndex) : SegmentIndex := { ix with records := [] }

end SegmentIndex

end SegmentedLog
