import SegmentedLog.Failure

/-! # Buffered input

Bytes are fetched from a file a bufferful at a time; a request for at least a bufferful goes past an
empty buffer. What counts for a reader is `unread`: every request takes bytes off its front.
-/

namespace SegmentedLog

structure Source where
  /-- Bytes fetched and not yet handed out. -/
  buffered : Bytes := []
  pending : Bytes
  fetched : Nat := 0
  /-- What a request past the last byte meets; a plain end if nothing. -/
  ending : Option IoError := none
deriving Repr

namespace Source

def capacity : Nat := 8192

def unread (s : Source) : Bytes := s.buffered ++ s.pending

/-- Fetches the next `n` bytes of the file, or all there are. -/
def fetch (s : Source) (n : Nat) : Bytes × Source :=
  let (chunk, rest) := s.pending.splitAt n
  (chunk, { s with pending := rest, fetched := s.fetched + chunk.length })

def request (s : Source) (n : Nat) : Bytes × Source :=
  let (front, kept) := s.buffered.splitAt n
  let missing := n - front.length
  if missing = 0 then (front, { s with buffered := kept })
  else if missing < capacity then
    let (chunk, s) := s.fetch capacity
    let (back, kept) := chunk.splitAt missing
    (front ++ back, { s with buffered := kept })
  else
    let (back, s) := s.fetch missing
    (front ++ back, { s with buffered := [] })

def exhausted (s : Source) : Source :=
  { s with buffered := [], pending := [], fetched := s.fetched + s.pending.length }

/-- The same input after its file has changed. -/
def refresh (s : Source) (content : Bytes) : Source :=
  { s with pending := content.drop s.fetched }

/-- Reading from an input; on failure what was consumed stays consumed. -/
abbrev Reading := EStateM Failure Source

/-- What reading yields at the end of the input, if that is a plain end. -/
def atEnd {α : Type} (a : α) : Reading α := do
  match (← get).ending with
  | some cause => throw (.error (.io cause))
  | none => pure a

/-- The next `n` bytes; nothing if the input ends before that. -/
def take? (n : Nat) : Reading (Option Bytes) := do
  let (data, s) := (← get).request n
  set s
  if data.length < n then atEnd none else pure (some data)

def next? : Reading (Option UInt8) := do
  let data ← take? 1
  pure (data.bind List.head?)

def onlyZeros : Reading Bool := do
  let s ← get
  set s.exhausted
  atEnd (s.buffered.all (· = 0) && s.pending.all (· = 0))

/-- A request takes bytes off the front of the unread ones, however they are buffered. -/
theorem request_eq (s : Source) (n : Nat) :
    (s.request n).1 = s.unread.take n ∧ (s.request n).2.unread = s.unread.drop n := by
  simp only [request, fetch, List.splitAt_eq, unread, List.length_take]
  split
  · have h : n ≤ s.buffered.length := by omega
    exact ⟨(List.take_append_of_le_length h).symm, (List.drop_append_of_le_length h).symm⟩
  · have h : s.buffered.length ≤ n := by omega
    have hm : n - min n s.buffered.length = n - s.buffered.length := by omega
    rw [hm, List.take_append, List.drop_append, List.take_of_length_le h, List.drop_of_length_le h]
    split
    · constructor
      · rw [List.take_take, Nat.min_eq_left (by omega)]
      · by_cases short : n - s.buffered.length ≤ (s.pending.take capacity).length
        · rw [← List.drop_append_of_le_length short, List.take_append_drop]
          rfl
        · rw [List.length_take] at short
          rw [List.drop_of_length_le (by rw [List.length_take]; omega),
            List.drop_of_length_le (by omega), List.drop_of_length_le (by omega)]
    · exact ⟨rfl, rfl⟩

theorem take?_eq (s : Source) (n : Nat) :
    take? n s = if s.unread.length < n then atEnd none (s.request n).2
      else .ok (some (s.unread.take n)) (s.request n).2 := by
  have short : (s.unread.take n).length < n ↔ s.unread.length < n := by
    rw [List.length_take]; omega
  have run : take? n s = (if (s.request n).1.length < n then atEnd none
      else pure (some (s.request n).1) : Reading (Option Bytes)) (s.request n).2 := rfl
  rw [run, (request_eq s n).1]
  by_cases h : s.unread.length < n
  · rw [if_pos h, if_pos (short.mpr h)]
  · rw [if_neg h, if_neg (mt short.mp h)]
    rfl

end Source

end SegmentedLog
