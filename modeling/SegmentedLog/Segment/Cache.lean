import SegmentedLog.Entry.Shared
import SegmentedLog.Failure

/-! # The entry cache of a segment

A cache holds references to entries under their keys, and a running total of the sizes they were
counted at. Evicting empties it; closing empties it for good. The total is a 64-bit counter, which
would wrap around.
-/

namespace SegmentedLog

namespace Cache

structure Slot where
  key : TermIndex
  ref : EntryRef
  /-- The size the entry was counted at. -/
  size : Nat
deriving DecidableEq, Repr

/-- What a cache holds; a closed one stays closed. -/
inductive Contents where
  | active (slots : List Slot)
  | closed
deriving DecidableEq, Repr

end Cache

structure Cache where
  contents : Cache.Contents := .active []
  total : UInt64 := 0
deriving DecidableEq, Repr

namespace Cache

def slots (c : Cache) : List Slot :=
  match c.contents with
  | .active slots => slots
  | .closed => []

def isClosed (c : Cache) : Bool := c.contents = .closed

def entries (c : Cache) : Nat := c.slots.length

def size (c : Cache) : Nat := c.total.toNat

def find? (c : Cache) (key : TermIndex) : Option Slot := c.slots.find? (·.key = key)

/-- The cached entry, with one more reference to it taken. -/
def get? (c : Cache) (refs : RefCounts) (key : TermIndex) : Option (EntryRef × RefCounts) := do
  let slot ← c.find? key
  let refs ← refs.retain? slot.ref
  some (slot.ref, refs)

def remove (c : Cache) (refs : RefCounts) (key : TermIndex) : Cache × RefCounts :=
  match c.find? key with
  | none => (c, refs)
  | some slot =>
    ({ contents := .active (c.slots.filter (·.key ≠ key))
       total := c.total - UInt64.ofNat slot.size },
      refs.release slot.ref)

/-- Holds an entry under a key, in place of what was held there. A closed cache holds nothing. -/
def put (c : Cache) (refs : RefCounts) (key : TermIndex) (r : EntryRef) (purpose : SizePurpose) :
    Except Fault (Cache × RefCounts) := do
  let size ← r.entry.sizeFor purpose
  match c.contents with
  | .closed => .ok (c, refs)
  | .active _ =>
    match refs.retain? r with
    | none => .ok (c, refs)
    | some refs =>
      let (c, refs) := c.remove refs key
      .ok ({ contents := .active (⟨key, r, size⟩ :: c.slots)
             total := c.total + UInt64.ofNat size }, refs)

def refsHeld (c : Cache) : List EntryRef := c.slots.map (·.ref)

/-- The running total once every slot is let go of, one after the other. -/
def drained (c : Cache) : UInt64 :=
  c.slots.foldl (fun total slot => total - UInt64.ofNat slot.size) c.total

def evict (c : Cache) (refs : RefCounts) : Cache × RefCounts :=
  match c.contents with
  | .closed => (c, refs)
  | .active _ => ({ contents := .active [], total := c.drained }, refs.releaseAll c.refsHeld)

/-- Lets go of everything and refuses all further use. -/
def close (c : Cache) (refs : RefCounts) : Cache × RefCounts :=
  match c.contents with
  | .closed => (c, refs)
  | .active _ => ({ contents := .closed, total := c.drained }, refs.releaseAll c.refsHeld)

end Cache

end SegmentedLog
