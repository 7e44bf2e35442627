import SegmentedLog.Proofs.Taking

/-! # What operations do to the accounts of a segment

The accounts of a segment tell which entries lie behind each other from which offset on. Taking an
entry in adds it to them, truncating takes the last ones off and closes the segment, and clearing
leaves none at the offset that was reached.
-/

namespace SegmentedLog

open Stepwise

namespace Segment

variable {seg seg' : Segment} {base : Nat} {entries : List LogEntry}

/-- What a segment accounts for, whatever serves reading only. -/
structure Books where
  isOpen : Bool
  next : UInt64
  fileSize : Nat
  index : SegmentIndex

def books (seg : Segment) : Books := ⟨seg.isOpen, seg.next, seg.fileSize, seg.index⟩

/-- Whether the accounts of a segment are those of entries that lie one behind the other from the
offset `base` on. -/
structure Spans (seg : Segment) (base : Nat) (entries : List LogEntry) : Prop
    extends seg.LaysOut base entries where
  next : seg.next.toNat = seg.start.toNat + entries.length

theorem spans_opening (context : SegmentContext) (start : UInt64) :
    (opening context start).Spans headerSize [] := ⟨⟨rfl, Consecutive.nil, rfl⟩, rfl⟩

theorem Holds.spans (h : seg.Holds entries) (hne : entries ≠ []) :
    seg.Spans headerSize entries := ⟨h.laysOut, h.next hne⟩

theorem Spans.holds (h : seg.Spans headerSize entries) : seg.Holds entries :=
  ⟨h.records, h.consecutive, h.fileSize, fun _ => h.next⟩

theorem Spans.of_books (h : seg.Spans base entries) (hbooks : seg'.books = seg.books) :
    seg'.Spans base entries := by
  obtain ⟨-, hnext, hsize, hindex⟩ := Books.mk.inj hbooks
  have hrecords : seg'.records = seg.records := congrArg SegmentIndex.records hindex
  have hstart : seg'.start = seg.start := congrArg SegmentIndex.start hindex
  refine ⟨⟨hrecords.trans h.records, ?_, hsize.trans h.fileSize⟩, ?_⟩
  · rw [hstart]
    exact h.consecutive
  · rw [hnext, hstart]
    exact h.next

theorem Spans.closed (h : seg.Spans base entries) :
    ({ seg with isOpen := false } : Segment).Spans base entries :=
  ⟨⟨h.records, h.consecutive, h.fileSize⟩, h.next⟩

theorem range_of_books (h : seg'.books = seg.books) : seg'.range = seg.range := by
  obtain ⟨hopen, hnext, -, hindex⟩ := Books.mk.inj h
  rw [range, range, hopen, hnext, start, start, hindex]

theorem Spans.contains_iff (h : seg.Spans base entries) {index : UInt64} :
    seg.Contains index ↔ index ∈ entries.map (·.index) := by
  rw [h.consecutive.mem_iff, List.length_map, ← h.next, Contains, UInt64.le_iff_toNat_le,
    UInt64.lt_iff_toNat_lt]

end Segment

namespace Session

variable {s t : Session} {r : EntryRef} {purpose : SizePurpose} {entries : List LogEntry}
  {base n : Nat} {first : UInt64} {key : TermIndex}

/-! ## Appending -/

/-- The entry that was appended was the next one, and was taken in and cached. -/
theorem taken_of_append (h : s.segment.Spans base entries)
    (happend : append purpose r s = .ok () t) :
    s.segment.isOpen = true ∧
      r.entry.index.toNat = s.segment.start.toNat + entries.length ∧
      r.entry.index.toNat + 1 < UInt64.size ∧
      ∃ cache refs, s.segment.cache.put s.refs r.entry.key r purpose = .ok (cache, refs) ∧
        t = s.taken r cache refs := by
  obtain ⟨hopen, htake⟩ := append_eq_ok.mp happend
  obtain ⟨hnext, -, hbound, htaken⟩ := (take_eq_ok_of_contiguous h.contiguous).mp htake
  rw [h.length_records] at hnext
  exact ⟨hopen, hnext, hbound, htaken⟩

theorem append_of_spans (h : s.segment.Spans base entries)
    (happend : append purpose r s = .ok () t) :
    t.segment.Spans base (entries ++ [r.entry]) ∧ t.segment.isOpen = s.segment.isOpen ∧
      t.sink = s.sink.accept r.entry := by
  obtain ⟨-, hnext, hbound, cache, refs, -, rfl⟩ := taken_of_append h happend
  exact ⟨⟨laysOut_taken h.toLaysOut hnext, next_taken hnext hbound⟩, rfl, rfl⟩

theorem append_within (purpose : SizePurpose) (r : EntryRef) :
    Within (fun s : Session => s.disk) Failure.IsFault (append purpose r) :=
  .bind .get fun _ => .ite (take_within purpose r true) (.throw ⟨_, rfl⟩)

/-! ## Truncating -/

/-- The session after all records but the first `count` were taken off, the last one first. -/
def trimmed (s : Session) (count : Nat) : Session :=
  let removed := s.segment.records.drop count
  let (cache, refs) := s.segment.cache.removeAll s.refs (removed.reverse.map (·.key))
  { s with
    segment := { s.segment with
      index := { s.segment.index with records := s.segment.records.take count }
      fileSize := (removed.head?.map (·.offset)).getD s.segment.fileSize
      cache }
    refs }

def truncated (s : Session) (first : UInt64) : Session :=
  let t := s.trimmed (first.toNat - s.segment.start.toNat)
  { t with segment := { t.segment with isOpen := false, next := first } }

theorem trimmed_length (s : Session) : s.trimmed s.segment.records.length = s := by
  have hdrop : s.segment.records.drop s.segment.records.length = [] := List.drop_length
  have htake : s.segment.records.take s.segment.records.length = s.segment.index.records :=
    List.take_length
  simp only [trimmed, hdrop, htake]
  rfl

theorem onIndex_removeLast {last : LogRecord} (hlast : s.segment.index.last? = some last) :
    onIndex SegmentIndex.removeLast s = .ok last { s with
      segment := { s.segment with
        index := { s.segment.index with records := s.segment.index.records.dropLast } } } := by
  refine onIndex_eq_ok.mpr ⟨{ s.segment.index with records := s.segment.index.records.dropLast },
    ?_, rfl⟩
  rw [SegmentIndex.removeLast, get_bind, hlast]
  rfl

def shortened (s : Session) (front : List LogRecord) (last : LogRecord) : Session :=
  { s with
    segment := { s.segment with
      index := { s.segment.index with records := front }
      fileSize := last.offset
      cache := (s.segment.cache.remove s.refs last.key).1 }
    refs := (s.segment.cache.remove s.refs last.key).2 }

theorem trimmed_shortened {front : List LogRecord} {last : LogRecord}
    (h : s.segment.records = front ++ [last]) {count : Nat} (hcount : count ≤ front.length) :
    (s.shortened front last).trimmed count = s.trimmed count := by
  have hrecords : (s.shortened front last).segment.records = front := rfl
  simp only [trimmed, h, hrecords, List.take_append_of_le_length hcount,
    List.drop_append_of_le_length hcount, List.reverse_append, List.map_append]
  cases hdrop : front.drop count with
  | nil => rfl
  | cons first removed => rfl

theorem takeOff_succ {front : List LogRecord} {last : LogRecord} {next : Nat}
    (h : s.segment.records = front ++ [last]) (hlast : last.index = UInt64.ofNat (next - 1)) :
    takeOff next (n + 1) s = takeOff (next - 1) n (s.shortened front last) := by
  have hrecords : s.segment.index.records = front ++ [last] := h
  have hfound : s.segment.index.last? = some last := by
    rw [SegmentIndex.last?, hrecords, List.getLast?_concat]
  have hremove := onIndex_removeLast hfound
  rw [hrecords, List.dropLast_concat] at hremove
  rw [takeOff, bind_of_ok hremove, if_neg (not_not.mpr hlast)]
  rfl

/-- Records are taken off from the end, and never one that is not expected there. -/
theorem takeOff_of_contiguous (h : s.segment.index.Contiguous) (hn : n ≤ s.segment.records.length) :
    takeOff (s.segment.start.toNat + s.segment.records.length) n s =
      .ok () (s.trimmed (s.segment.records.length - n)) := by
  induction n generalizing s with
  | zero =>
    rw [Nat.sub_zero, trimmed_length]
    rfl
  | succ n ih =>
    obtain ⟨front, last, hrecords⟩ : ∃ front last, s.segment.records = front ++ [last] := by
      refine ⟨_, _, (List.dropLast_concat_getLast ?_).symm⟩
      intro hnil
      rw [hnil] at hn
      cases hn
    have hlength : s.segment.records.length = front.length + 1 := by rw [hrecords]; simp
    have hfront : (s.shortened front last).segment.index.Contiguous := by
      change Consecutive _ (s.segment.records.map _) at h
      rw [hrecords, List.map_append, Consecutive.append_iff] at h
      exact h.1
    have hlast : last.index.toNat + 1 = s.segment.start.toNat + s.segment.records.length :=
      h.toNat_last? (by
        change s.segment.records.getLast? = some last
        rw [hrecords, List.getLast?_concat])
    rw [takeOff_succ hrecords (by rw [← hlast, Nat.add_sub_cancel, UInt64.ofNat_toNat]), hlength]
    have hrest := ih hfront (by
      change n ≤ front.length
      omega)
    change takeOff (s.segment.start.toNat + front.length) n _ = _ at hrest
    rw [show s.segment.start.toNat + (front.length + 1) - 1 =
      s.segment.start.toNat + front.length by omega, hrest]
    change EStateM.Result.ok () ((s.shortened front last).trimmed (front.length - n)) = _
    rw [trimmed_shortened hrecords (Nat.sub_le _ _), Nat.add_sub_add_right]

/-- What is left lies where it did, and the size is that of what is left. -/
theorem laysOut_trimmed (h : s.segment.LaysOut base entries) (count : Nat) :
    (s.trimmed count).segment.LaysOut base (entries.take count) := by
  refine ⟨?_, ?_, ?_⟩
  · change s.segment.records.take count = _
    rw [h.records, LogRecord.take_layout]
  · rw [List.map_take]
    exact h.consecutive.take count
  · change ((s.segment.records.drop count).head?.map (·.offset)).getD s.segment.fileSize = _
    rw [List.head?_drop, h.records, LogRecord.getElem?_layout]
    cases hremoved : entries[count]? with
    | none =>
      rw [List.take_of_length_le (List.getElem?_eq_none_iff.mp hremoved)]
      exact h.fileSize
    | some e => rfl

/-- The cache loses what it held under the keys of the records that were taken off, and no more. -/
theorem find?_trimmed (count : Nat) : (s.trimmed count).segment.cache.find? key =
    if key ∈ (s.segment.records.drop count).map (·.key) then none
    else s.segment.cache.find? key := by
  change (s.segment.cache.removeAll s.refs _).1.find? key = _
  simp only [Cache.find?_removeAll, List.map_reverse, List.mem_reverse]

theorem truncate_of_not_contains (h : ¬ s.segment.Contains first) :
    truncate first s =
      .error (.fault (.truncateOutside first s.segment.start s.segment.next)) s := by
  rw [truncate, get_bind, if_neg h]
  rfl

theorem truncate_of_contains (h : s.segment.Spans base entries)
    (hfirst : s.segment.Contains first) : truncate first s = .ok () (s.truncated first) := by
  have hstart := UInt64.le_iff_toNat_le.mp hfirst.1
  have hnext := UInt64.lt_iff_toNat_lt.mp hfirst.2
  have hlength := h.length_records
  have hcount := h.next
  have htaken := takeOff_of_contiguous h.contiguous (n := s.segment.next.toNat - first.toNat)
    (by omega)
  have hkept : entries.length - (s.segment.next.toNat - first.toNat) =
      first.toNat - s.segment.start.toNat := by omega
  rw [hlength, ← hcount, hkept] at htaken
  rw [truncate, get_bind, if_pos hfirst, bind_of_ok htaken]
  rfl

theorem truncate_eq_ok (h : s.segment.Spans base entries) :
    truncate first s = .ok () t ↔ s.segment.Contains first ∧ t = s.truncated first := by
  by_cases hfirst : s.segment.Contains first
  · rw [truncate_of_contains h hfirst]
    simp [hfirst, eq_comm]
  · rw [truncate_of_not_contains hfirst]
    simp [hfirst]

theorem spans_truncated (h : s.segment.Spans base entries) (hfirst : s.segment.Contains first) :
    (s.truncated first).segment.Spans base
      (entries.take (first.toNat - s.segment.start.toNat)) := by
  have hstart := UInt64.le_iff_toNat_le.mp hfirst.1
  have hnext := UInt64.lt_iff_toNat_lt.mp hfirst.2
  have hlaid := laysOut_trimmed h.toLaysOut (first.toNat - s.segment.start.toNat)
  refine ⟨⟨hlaid.records, hlaid.consecutive, hlaid.fileSize⟩, ?_⟩
  change first.toNat = s.segment.start.toNat + _
  rw [h.next] at hnext
  rw [List.length_take]
  omega

/-! ## Closing and clearing -/

theorem close_eq_ok : close s = .ok () t ↔
    s.segment.isOpen = true ∧ t = { s with segment := { s.segment with isOpen := false } } := by
  rw [close, get_bind]
  cases hopen : s.segment.isOpen with
  | true =>
    rw [if_pos rfl, update_eq_ok]
    simp
  | false =>
    rw [if_neg Bool.false_ne_true]
    constructor
    · intro h
      exact absurd h throw_ne_ok
    · rintro ⟨h, -⟩
      cases h

theorem close_within : Within (fun s : Session => s.disk) Failure.IsFault close :=
  .bind .get fun _ => .ite (.modify fun _ => rfl) (.throw ⟨_, rfl⟩)

def cleared (s : Session) : Session :=
  { s with
    segment := { s.segment with
      index := s.segment.index.clear
      cache := (s.segment.cache.close s.refs).1
      next := s.segment.start }
    refs := (s.segment.cache.close s.refs).2 }

theorem spans_cleared (s : Session) : s.cleared.segment.Spans s.segment.fileSize [] :=
  ⟨⟨rfl, Consecutive.nil, rfl⟩, rfl⟩

end Session

end SegmentedLog
