import SegmentedLog.File.Consumption

/-! # Scanning a whole segment file

A scan hands over the entries of a file in order. The first has to sit at the start of the range and
each later one right behind the one before it; anything else ends the scan with a failure, and so
does every failure of the reader. What was read before stays read.
-/

namespace SegmentedLog

/-- The entries that were read, oldest first. -/
structure Scan where
  entries : List LogEntry
  /-- Why the scan stopped, if not at the end of the data. -/
  failure : Option Failure
deriving Repr

namespace Scan

def failed (cause : Failure) : Scan := ⟨[], some cause⟩

def complete : Scan := ⟨[], none⟩

def cons (e : LogEntry) (scan : Scan) : Scan := { scan with entries := e :: scan.entries }

/-- Whether `index` may follow the entry read last, or start the scan. -/
def checkOrder (path : String) (start : UInt64) (previous : Option UInt64) (index : UInt64) :
    Except Failure Unit :=
  match previous with
  | none =>
    if index = start then .ok () else .error (.error (.corruption (.wrongFirst index start path)))
  | some previous =>
    match nextIndex previous with
    | .error cause => .error (.fault cause)
    | .ok expected =>
      if index = expected then .ok ()
      else .error (.error (.corruption (.gap previous index path)))

def ofReader (previous : Option UInt64) (r : Reader) : Scan :=
  match h : r.next with
  | .error cause _ => failed cause
  | .ok none _ => complete
  | .ok (some e) r' =>
    have := Reader.unread_of_next h
    match checkOrder r.path r.range.start previous e.index with
    | .error cause => failed cause
    | .ok () => cons e (ofReader (some e.index) r')
termination_by r.source.unread.length

/-- All entries a reader hands out before it stops, in whatever order, and the reader then. -/
def drain (r : Reader) : Scan × Reader :=
  match h : r.next with
  | .error cause r' => (failed cause, r'.stopped cause)
  | .ok none r' => (complete, r')
  | .ok (some e) r' =>
    have := Reader.unread_of_next h
    let (rest, last) := drain r'
    (cons e rest, last)
termination_by r.source.unread.length

def ofSource (path : String) (range : SegmentRange) (maxEntrySize : Nat) (source : Source) : Scan :=
  match Reader.openOn path range maxEntrySize source with
  | .error cause => failed cause
  | .ok r => ofReader none r

/-- How many entries were read, if the policy accepts how the scan ended. -/
def settle (scan : Scan) (policy : CorruptionPolicy) : Except Failure Nat :=
  match scan.failure, policy with
  | some (.fault cause), _ => .error (.fault cause)
  | some (.error cause), .strict => .error (.error cause)
  | some (.error _), .tolerant | none, _ => .ok scan.entries.length

end Scan

end SegmentedLog
