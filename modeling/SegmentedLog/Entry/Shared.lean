import SegmentedLog.Entry.Basic
import SegmentedLog.Text.Quoted

/-! # Shared entries

An entry is shared by reference. Every reference that is held counts once; an entry whose count has
fallen to zero is released, and no further reference to it can be taken.
-/

namespace SegmentedLog

/-- A reference to a shared entry. Two references are to the same sharing if their numbers agree. -/
structure EntryRef where
  number : Nat
  entry : LogEntry
deriving DecidableEq, Repr

namespace EntryRef

def Same (a b : EntryRef) : Prop := a.number = b.number

instance (a b : EntryRef) : Decidable (a.Same b) := inferInstanceAs (Decidable (_ = _))

end EntryRef

/-- How many references to each shared entry are held. -/
structure RefCounts where
  counts : Array Nat := #[]
deriving Repr

namespace RefCounts

def count (refs : RefCounts) (r : EntryRef) : Nat := refs.counts.getD r.number 0

/-- Shares an entry; the reference is the only one. -/
def wrap (refs : RefCounts) (e : LogEntry) : EntryRef × RefCounts :=
  (⟨refs.counts.size, e⟩, ⟨refs.counts.push 1⟩)

/-- Takes one more reference, unless the entry is released. -/
def retain? (refs : RefCounts) (r : EntryRef) : Option RefCounts :=
  if refs.count r = 0 then none else some ⟨refs.counts.modify r.number (· + 1)⟩

/-- Gives a reference up. A count of zero would wrap around to the largest number of 64 bits. -/
def release (refs : RefCounts) (r : EntryRef) : RefCounts :=
  ⟨refs.counts.modify r.number fun n => if n = 0 then UInt64.size - 1 else n - 1⟩

def releaseAll (refs : RefCounts) (rs : List EntryRef) : RefCounts := rs.foldl release refs

end RefCounts

def LogEntry.describe (e : LogEntry) : String :=
  let stateData :=
    match e.stateData with
    | none => "None"
    | some data => "Some(" ++ Quoted.ofBytes data ++ ")"
  s!"LogEntry \x7b term: {e.term}, index: {e.index}, kind: {e.kind.name}, " ++
    s!"payload: {Quoted.ofBytes e.payload}, state_machine_data: {stateData} \x7d"

def RefCounts.describe (refs : RefCounts) (r : EntryRef) : String :=
  s!"ReferenceCounted \x7b refs: {refs.count r}, value: {r.entry.describe} \x7d"

end SegmentedLog
