import SegmentedLog.Bytes.LittleEndian

/-! # Log entries

An entry is identified by the term it was created in and its index. State machine data travels with
an entry in memory only; what reaches a file is the entry without it.
-/

namespace SegmentedLog

/-- The identity of an entry. -/
structure TermIndex where
  term : UInt64
  index : UInt64
deriving DecidableEq, Repr

namespace TermIndex

instance : ToString TermIndex where
  toString key := s!"(t:{key.term.toNat}, i:{key.index.toNat})"

/-- Terms are compared first. -/
def le (a b : TermIndex) : Bool :=
  a.term < b.term || (a.term = b.term && a.index ≤ b.index)

def sort (keys : List TermIndex) : List TermIndex := keys.mergeSort le

end TermIndex

/-- What an entry carries: a state machine operation, a membership change, or commit metadata. -/
inductive EntryKind where
  | normal
  | configuration
  | metadata
deriving DecidableEq, Repr

def EntryKind.name : EntryKind → String
  | .normal => "Normal"
  | .configuration => "Configuration"
  | .metadata => "Metadata"

structure LogEntry where
  term : UInt64
  index : UInt64
  kind : EntryKind
  payload : Bytes
  /-- Out-of-band data a state machine attached, if any. -/
  stateData : Option Bytes := none
deriving DecidableEq, Repr

namespace LogEntry

def key (e : LogEntry) : TermIndex := ⟨e.term, e.index⟩

def hasStateData (e : LogEntry) : Bool := e.stateData.isSome

/-- The entry as it reaches a file: without state machine data. -/
def stripped (e : LogEntry) : LogEntry := { e with stateData := none }

theorem stripped_of_not_hasStateData {e : LogEntry} (h : e.hasStateData = false) :
    e.stripped = e := by
  cases e
  simp_all [stripped, hasStateData]

end LogEntry

end SegmentedLog
