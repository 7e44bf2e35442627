import SegmentedLog.Disk.Error
import SegmentedLog.Entry.Footprint
import SegmentedLog.Text.Hexadecimal

/-! # Failures

An operation fails with a `SegmentError`, which callers are expected to handle, or with a `Fault`: a
rule of use was broken, or corruption went unnoticed until then. Each cause is a value; its wording
is given here and nowhere else.
-/

namespace SegmentedLog

inductive Corruption where
  | foreignHeader (path : String) (header : Bytes)
  | shortFile (path : String) (length : Nat)
  | truncatedNumber (bytesRead : Nat)
  | overlongNumber
  | oversizedEntry (offset : Nat) (path : String) (size limit : Nat)
  | truncatedEntry (offset : Nat) (path : String)
  | truncatedChecksum (offset : Nat) (path : String)
  | checksumMismatch (offset : Nat) (path : String) (stored computed : UInt32)
  | beforeStart (index start : UInt64) (path : String)
  | dirtyPadding (offset : Nat) (path : String)
  | wrongFirst (index start : UInt64) (path : String)
  | gap (previous index : UInt64) (path : String)
deriving DecidableEq, Repr

def bracketed (bs : Bytes) : String :=
  "[" ++ ", ".intercalate (bs.map fun b => toString b.toNat) ++ "]"

def Corruption.message : Corruption → String
  | .foreignHeader path header => s!"Invalid segment header in {path}: {bracketed header}"
  | .shortFile path length => s!"Segment file {path} is shorter than its header ({length} bytes)"
  | .truncatedNumber n => s!"Truncated varint after {n} bytes"
  | .overlongNumber => "Varint too long"
  | .oversizedEntry offset path size limit =>
    s!"Entry at offset {offset} of {path} is {size} bytes, exceeding the maximum {limit}"
  | .truncatedEntry offset path => s!"Truncated entry at offset {offset} of {path}"
  | .truncatedChecksum offset path => s!"Truncated checksum at offset {offset} of {path}"
  | .checksumMismatch offset path stored computed =>
    let word (c : UInt32) := Hexadecimal.padded 8 c.toNat
    s!"Checksum mismatch at offset {offset} of {path}: " ++
      s!"expected 0x{word stored}, got 0x{word computed}"
  | .beforeStart index start path =>
    s!"Entry index {index} is before the segment start {start} in {path}"
  | .dirtyPadding offset path => s!"Non-zero bytes in padding after offset {offset} of {path}"
  | .wrongFirst index start path =>
    s!"First entry {index} does not match the segment start {start} in {path}"
  | .gap previous index path => s!"Gap between entry {previous} and entry {index} in {path}"

/-- Where a reconstructed segment disagrees with what was read. -/
structure Inconsistency where
  subject : String
  expected : String
  actual : String
deriving DecidableEq, Repr

def Inconsistency.message (i : Inconsistency) : String :=
  s!"{i.subject}: expected {i.expected} but was {i.actual}"

inductive ConfigError where
  | unknownPolicy (text : String)
  | underivableRange (path : String)
  | unknownIndex (index : UInt64) (segment : String)
deriving DecidableEq, Repr

def ConfigError.message : ConfigError → String
  | .unknownPolicy text => s!"Unknown corruption policy: {text}"
  | .underivableRange path => s!"Cannot derive segment range from {path}; pass --start/--end"
  | .unknownIndex index segment => s!"Index {index} is not in {segment}"

/-- The class of an error, which decides how its text begins. -/
inductive ErrorClass where
  | io
  | corruption
  | serialization
  | entryRead (key : TermIndex)
  | inconsistent
  | config
deriving DecidableEq, Repr

def ErrorClass.message (c : ErrorClass) (detail : String) : String :=
  match c with
  | .io => s!"IO error: {detail}"
  | .corruption => s!"Segment corruption detected: {detail}"
  | .serialization => s!"Serialization error: {detail}"
  | .entryRead key => s!"Failed to read log entry {key}: {detail}"
  | .inconsistent => s!"Inconsistent segment: {detail}"
  | .config => s!"Configuration error: {detail}"

inductive SegmentError where
  | io (cause : IoError)
  | corruption (cause : Corruption)
  | decode (cause : DecodeError)
  | outsideSegment (key : TermIndex) (segment : String)
  /-- A scan of the whole file did not meet the wanted entry. -/
  | entryNotFound (key : TermIndex) (path : String) (scanned : Nat)
  | loadFailed (key : TermIndex) (segment : String) (cause : SegmentError)
  | inconsistent (path : String) (cause : Inconsistency)
  | config (cause : ConfigError)
deriving DecidableEq, Repr

namespace SegmentError

def errorClass : SegmentError → ErrorClass
  | .io _ => .io
  | .corruption _ => .corruption
  | .decode _ => .serialization
  | .outsideSegment key _ | .entryNotFound key _ _ | .loadFailed key _ _ => .entryRead key
  | .inconsistent _ _ => .inconsistent
  | .config _ => .config

def message : SegmentError → String
  | .io cause => ErrorClass.io.message cause.message
  | .corruption cause => ErrorClass.corruption.message cause.message
  | .decode cause => ErrorClass.serialization.message cause.message
  | .outsideSegment key segment =>
    (ErrorClass.entryRead key).message s!"index is outside segment {segment}"
  | .entryNotFound key path scanned =>
    (ErrorClass.entryRead key).message s!"entry not found in {path} ({scanned} entries scanned)"
  | .loadFailed key segment cause =>
    (ErrorClass.entryRead key).message s!"failed to load segment {segment}: {cause.message}"
  | .inconsistent path cause =>
    ErrorClass.inconsistent.message s!"Failed to read segment file {path}: {cause.message}"
  | .config cause => ErrorClass.config.message cause.message

end SegmentError

/-- A broken rule of use. -/
inductive Fault where
  | overflow
  /-- A buffer larger than any memory was asked for. -/
  | capacity
  | stateData (purpose : SizePurpose) (key : TermIndex)
  | gapAtStart (start index : UInt64)
  | gapAfterLast (last index : UInt64)
  | duplicateRecord (index : UInt64)
  | emptyIndex
  | endBeforeStart (last start : UInt64)
  | appendToClosed (segment : String)
  | closeOfClosed (start : UInt64)
  | truncateOutside (first start next : UInt64)
  | removedOther (expected actual : UInt64)
deriving DecidableEq, Repr

def Fault.message : Fault → String
  | .overflow => "attempt to add with overflow"
  | .capacity => "capacity overflow"
  | .stateData purpose key =>
    s!"Unexpected entry with state machine data: op={purpose.name}, entry={key}"
  | .gapAtStart start index =>
    s!"Gap between start index {start} and the entry to append {index}"
  | .gapAfterLast last index =>
    s!"Gap between last entry {last} and the entry to append {index}"
  | .duplicateRecord index => s!"Duplicate record for index {index}"
  | .emptyIndex => "remove_last on an empty segment index"
  | .endBeforeStart last start => s!"Closed segment end {last} is before its start {start}"
  | .appendToClosed segment => s!"The log segment {segment} is not open for append"
  | .closeOfClosed start => s!"Closing segment {start} which is not open"
  | .truncateOutside first start next =>
    s!"Truncate index {first} is outside segment [{start}, {next})"
  | .removedOther expected actual =>
    s!"assertion `left == right` failed: removedIndex\n  left: {expected}\n right: {actual}"

inductive Failure where
  | error (cause : SegmentError)
  | fault (cause : Fault)
deriving DecidableEq, Repr

def Failure.message : Failure → String
  | .error cause => cause.message
  | .fault cause => cause.message

/-- The index after `index`, of which the largest has none. -/
def nextIndex (index : UInt64) : Except Fault UInt64 :=
  if index.toNat + 1 < UInt64.size then .ok (index + 1) else .error .overflow

namespace LogEntry

/-- The space the entry takes when measured for `purpose`, which may not admit it. -/
def sizeFor (e : LogEntry) (purpose : SizePurpose) : Except Fault Nat :=
  if purpose.Admits e then .ok e.footprint else .error (.stateData purpose e.key)

end LogEntry

end SegmentedLog
