import SegmentedLog.Proofs.Caching
import SegmentedLog.Proofs.Records
import SegmentedLog.Segment.Session

/-! # What a segment is after taking an entry in

A segment that holds a run of entries takes in exactly the entry with the next index, if its size
may be measured and its index is not the largest. Afterwards it holds that entry too. Whether an
entry is cached changes nothing in the accounts.
-/

namespace SegmentedLog

open Stepwise

theorem nextIndex_eq_ok {index next : UInt64} :
    nextIndex index = .ok next ↔ index.toNat + 1 < UInt64.size ∧ next = index + 1 := by
  unfold nextIndex
  split <;> simp_all [eq_comm]

theorem toNat_add_one {index : UInt64} (h : index.toNat + 1 < UInt64.size) :
    (index + 1).toNat = index.toNat + 1 := by
  rw [UInt64.toNat_add]
  exact Nat.mod_eq_of_lt h

/-- What was received after entries were accepted one by one. -/
theorem Sink.foldl_accept (received entries : List LogEntry) :
    entries.foldl Sink.accept (.listening received) = .listening (received ++ entries) := by
  induction entries generalizing received with
  | nil => rw [List.append_nil]; rfl
  | cons e entries ih =>
    rw [List.foldl_cons, Sink.accept, ih, List.append_assoc]
    rfl

def Failure.IsFault (cause : Failure) : Prop := ∃ fault, cause = .fault fault

/-- Whether a range is open, or its last index is no less than the first and not the largest. -/
def SegmentRange.Proper (range : SegmentRange) : Prop :=
  range.isOpen = false → range.start ≤ range.last ∧ range.last.toNat + 1 < UInt64.size

instance (range : SegmentRange) : Decidable range.Proper := inferInstanceAs (Decidable (_ → _))

namespace Segment

variable {seg : Segment} {entries : List LogEntry} {base : Nat}

/-- Whether the records of a segment are those of entries with consecutive indices that lie one
behind the other from the offset `base` on. -/
structure LaysOut (seg : Segment) (base : Nat) (entries : List LogEntry) : Prop where
  records : seg.records = LogRecord.layout base entries
  consecutive : Consecutive seg.start.toNat (entries.map (·.index))
  fileSize : seg.fileSize = base + (entries.map (·.footprint)).sum

theorem LaysOut.length_records (h : seg.LaysOut base entries) :
    seg.records.length = entries.length := by
  rw [h.records, LogRecord.length_layout]

theorem LaysOut.contiguous (h : seg.LaysOut base entries) : seg.index.Contiguous := by
  have hindices := h.consecutive
  rw [← LogRecord.map_index_layout base, ← h.records] at hindices
  exact hindices

/-- Whether a segment holds exactly these entries: its records lie one behind the other as the
entries do, and its accounts agree with them. -/
structure Holds (seg : Segment) (entries : List LogEntry) : Prop where
  records : seg.records = LogRecord.layout headerSize entries
  consecutive : Consecutive seg.start.toNat (entries.map (·.index))
  fileSize : seg.fileSize = headerSize + (entries.map (·.footprint)).sum
  next : entries ≠ [] → seg.next.toNat = seg.start.toNat + entries.length

theorem Holds.laysOut (h : seg.Holds entries) : seg.LaysOut headerSize entries :=
  ⟨h.records, h.consecutive, h.fileSize⟩

theorem Holds.length_records (h : seg.Holds entries) : seg.records.length = entries.length :=
  h.laysOut.length_records

theorem Holds.contiguous (h : seg.Holds entries) : seg.index.Contiguous := h.laysOut.contiguous

theorem holds_of_ofRange {context : SegmentContext} {range : SegmentRange}
    (h : ofRange context range = .ok seg) :
    seg.Holds [] ∧ seg.start = range.start ∧ seg.cache = {} ∧ seg.isOpen = range.isOpen ∧
      range.Proper := by
  unfold ofRange at h
  split at h
  · next hopen =>
    cases h
    exact ⟨⟨rfl, Consecutive.nil, rfl, by simp⟩, rfl, rfl, hopen.symm,
      by simp [SegmentRange.Proper, hopen]⟩
  · next hopen =>
    unfold closed at h
    split at h
    · cases h
    · next horder =>
      obtain ⟨next, hnext, hseg⟩ := exceptBind_eq_ok.mp h
      cases hseg
      have hbound := (nextIndex_eq_ok.mp hnext).1
      exact ⟨⟨rfl, Consecutive.nil, rfl, by simp⟩, rfl, rfl, by simpa using hopen,
        fun _ => ⟨UInt64.not_lt.mp horder, hbound⟩⟩

theorem context_of_ofRange {context : SegmentContext} {range : SegmentRange}
    (h : ofRange context range = .ok seg) : seg.context = context := by
  unfold ofRange at h
  split at h
  · cases h
    rfl
  · unfold closed at h
    split at h
    · cases h
    · obtain ⟨next, -, hseg⟩ := exceptBind_eq_ok.mp h
      cases hseg
      rfl

theorem ofRange_of_proper (context : SegmentContext) {range : SegmentRange} (h : range.Proper) :
    ∃ seg, ofRange context range = .ok seg := by
  unfold ofRange
  split
  · exact ⟨_, rfl⟩
  · next hopen =>
    obtain ⟨horder, hbound⟩ := h (by simpa using hopen)
    unfold closed
    rw [if_neg (UInt64.not_lt.mpr horder)]
    exact ⟨_, exceptBind_eq_ok.mpr ⟨_, nextIndex_eq_ok.mpr ⟨hbound, rfl⟩, rfl⟩⟩

end Segment

namespace Session

variable {s t : Session} {r : EntryRef} {purpose : SizePurpose} {keep : Bool}
  {entries : List LogEntry} {cache : Cache} {refs : RefCounts}

def taken (s : Session) (r : EntryRef) (cache : Cache) (refs : RefCounts) : Session :=
  { s with
    segment := { s.segment with
      index := { s.segment.index with
        records := s.segment.index.records ++ [.of s.segment.fileSize r.entry] }
      cache
      fileSize := s.segment.fileSize + r.entry.footprint
      next := r.entry.index + 1 }
    refs
    sink := s.sink.accept r.entry }

/-- What becomes of the cache: it is changed only if the entry is to be kept there. -/
def CachesTo (s : Session) (purpose : SizePurpose) (r : EntryRef) (keep : Bool) (cache : Cache)
    (refs : RefCounts) : Prop :=
  if keep then s.segment.cache.put s.refs r.entry.key r purpose = .ok (cache, refs)
  else cache = s.segment.cache ∧ refs = s.refs

theorem onIndex_eq_ok {α : Type} {m : SegmentIndex.Step α} {a : α} : onIndex m s = .ok a t ↔
    ∃ index, m s.segment.index = .ok a index ∧
      t = { s with segment := { s.segment with index } } := by
  unfold onIndex
  cases m s.segment.index <;> simp [eq_comm]

theorem guarded_eq_ok {α : Type} {result : Except Fault α} {a : α} :
    guarded result s = .ok a t ↔ result = .ok a ∧ t = s := by
  cases result with
  | error cause =>
    constructor
    · intro h
      exact absurd h throw_ne_ok
    · rintro ⟨h, -⟩
      cases h
  | ok b =>
    rw [guarded, pure_eq_ok]
    simp [eq_comm]

theorem update_eq_ok {f : Segment → Segment} :
    update f s = .ok () t ↔ t = { s with segment := f s.segment } := by
  rw [update, modify_eq_ok, eq_comm]

theorem cacheEntry_eq_ok : cacheEntry r purpose s = .ok () t ↔
    ∃ cache refs, s.segment.cache.put s.refs r.entry.key r purpose = .ok (cache, refs) ∧
      t = { s with segment := { s.segment with cache }, refs } := by
  rw [cacheEntry, get_bind, bind_eq_ok]
  constructor
  · rintro ⟨⟨cache, refs⟩, u, hput, hset⟩
    obtain ⟨hput, rfl⟩ := guarded_eq_ok.mp hput
    exact ⟨cache, refs, hput, (set_eq_ok.mp hset).symm⟩
  · rintro ⟨cache, refs, hput, rfl⟩
    exact ⟨(cache, refs), s, guarded_eq_ok.mpr ⟨hput, rfl⟩, set_eq_ok.mpr rfl⟩

def account (purpose : SizePurpose) (e : LogEntry) (index : UInt64) : Step Unit := do
  let size ← guarded (e.sizeFor purpose)
  update fun seg => { seg with fileSize := seg.fileSize + size }
  let next ← guarded (nextIndex index)
  update fun seg => { seg with next }
  modify fun s => { s with sink := s.sink.accept e }

theorem take_eq (purpose : SizePurpose) (r : EntryRef) (keep : Bool) (s : Session) :
    take purpose r keep s =
      (onIndex (SegmentIndex.append (.of s.segment.fileSize r.entry)) >>= fun index =>
        if keep = true then cacheEntry r purpose >>= fun _ => account purpose r.entry index
        else account purpose r.entry index) s := by
  cases keep <;> rfl

theorem account_eq_ok {e : LogEntry} {index : UInt64} : account purpose e index s = .ok () t ↔
    purpose.Admits e ∧ index.toNat + 1 < UInt64.size ∧
      t = { s with
        segment := { s.segment with
          fileSize := s.segment.fileSize + e.footprint
          next := index + 1 }
        sink := s.sink.accept e } := by
  unfold account
  constructor
  · intro h
    obtain ⟨size, _, hmeasured, hsized⟩ := bind_eq_ok.mp h
    obtain ⟨hsize, rfl⟩ := guarded_eq_ok.mp hmeasured
    obtain ⟨hadmits, rfl⟩ := LogEntry.sizeFor_eq_ok.mp hsize
    obtain ⟨_, _, hupdate, hgrown⟩ := bind_eq_ok.mp hsized
    rw [update_eq_ok.mp hupdate] at hgrown
    obtain ⟨next, _, hnumbered, hnext⟩ := bind_eq_ok.mp hgrown
    obtain ⟨hindex, rfl⟩ := guarded_eq_ok.mp hnumbered
    obtain ⟨hbound, rfl⟩ := nextIndex_eq_ok.mp hindex
    obtain ⟨_, _, hupdate', hsink⟩ := bind_eq_ok.mp hnext
    rw [update_eq_ok.mp hupdate'] at hsink
    exact ⟨hadmits, hbound, (modify_eq_ok.mp hsink).symm⟩
  · rintro ⟨hadmits, hbound, rfl⟩
    have hsize := LogEntry.sizeFor_eq_ok.mpr ⟨hadmits, rfl⟩
    have hnext := nextIndex_eq_ok.mpr ⟨hbound, rfl⟩
    rw [bind_of_ok (guarded_eq_ok.mpr ⟨hsize, rfl⟩), bind_of_ok (update_eq_ok.mpr rfl),
      bind_of_ok (guarded_eq_ok.mpr ⟨hnext, rfl⟩), bind_of_ok (update_eq_ok.mpr rfl)]
    rfl

/-- An entry is taken in if and only if it is the next one, it may be measured, and there is an
index behind its own. -/
theorem take_eq_ok_of_contiguous (h : s.segment.index.Contiguous) :
    take purpose r keep s = .ok () t ↔
      r.entry.index.toNat = s.segment.start.toNat + s.segment.records.length ∧
        purpose.Admits r.entry ∧ r.entry.index.toNat + 1 < UInt64.size ∧
        ∃ cache refs, s.CachesTo purpose r keep cache refs ∧ t = s.taken r cache refs := by
  have happend (index : UInt64) (ix : SegmentIndex) :
      SegmentIndex.append (.of s.segment.fileSize r.entry) s.segment.index = .ok index ix ↔ _ :=
    h.append_eq_ok
  rw [take_eq, bind_eq_ok]
  constructor
  · rintro ⟨index, u, hindex, hrest⟩
    obtain ⟨ix, hix, rfl⟩ := onIndex_eq_ok.mp hindex
    obtain ⟨hnext, rfl, rfl⟩ := (happend index ix).mp hix
    cases keep with
    | true =>
      obtain ⟨_, _, hcache, haccount⟩ := bind_eq_ok.mp hrest
      obtain ⟨cache, refs, hput, rfl⟩ := cacheEntry_eq_ok.mp hcache
      obtain ⟨hadmits, hbound, rfl⟩ := account_eq_ok.mp haccount
      exact ⟨hnext, hadmits, hbound, cache, refs, hput, rfl⟩
    | false =>
      obtain ⟨hadmits, hbound, rfl⟩ := account_eq_ok.mp hrest
      exact ⟨hnext, hadmits, hbound, s.segment.cache, s.refs, ⟨rfl, rfl⟩, rfl⟩
  · rintro ⟨hnext, hadmits, hbound, cache, refs, hcache, rfl⟩
    refine ⟨_, _, onIndex_eq_ok.mpr ⟨_, (happend _ _).mpr ⟨hnext, rfl, rfl⟩, rfl⟩, ?_⟩
    cases keep with
    | true =>
      refine bind_eq_ok.mpr ⟨(), _, cacheEntry_eq_ok.mpr ⟨cache, refs, hcache, rfl⟩, ?_⟩
      exact account_eq_ok.mpr ⟨hadmits, hbound, rfl⟩
    | false =>
      rcases hcache with ⟨rfl, rfl⟩
      exact account_eq_ok.mpr ⟨hadmits, hbound, rfl⟩

theorem take_eq_ok (h : s.segment.Holds entries) : take purpose r keep s = .ok () t ↔
    r.entry.index.toNat = s.segment.start.toNat + entries.length ∧ purpose.Admits r.entry ∧
      r.entry.index.toNat + 1 < UInt64.size ∧
      ∃ cache refs, s.CachesTo purpose r keep cache refs ∧ t = s.taken r cache refs := by
  rw [take_eq_ok_of_contiguous h.contiguous, h.length_records]

theorem append_eq_ok : append purpose r s = .ok () t ↔
    s.segment.isOpen = true ∧ take purpose r true s = .ok () t := by
  rw [append, get_bind]
  cases hopen : s.segment.isOpen with
  | true => simp
  | false =>
    rw [if_neg Bool.false_ne_true]
    constructor
    · intro h
      exact absurd h throw_ne_ok
    · rintro ⟨h, -⟩
      cases h

/-- What is there for a cache to become when its entry may be measured. -/
theorem exists_cachesTo (s : Session) (keep : Bool) (h : purpose.Admits r.entry) :
    ∃ cache refs, s.CachesTo purpose r keep cache refs := by
  unfold CachesTo
  cases keep with
  | true => exact Cache.put_of_admits _ _ _ h
  | false => exact ⟨_, _, rfl, rfl⟩

/-- A segment that took its next entry in has it behind the others. -/
theorem laysOut_taken {base : Nat} (h : s.segment.LaysOut base entries)
    (hnext : r.entry.index.toNat = s.segment.start.toNat + entries.length) :
    (s.taken r cache refs).segment.LaysOut base (entries ++ [r.entry]) := by
  refine ⟨?_, ?_, ?_⟩
  · change s.segment.records ++ [.of s.segment.fileSize r.entry] = _
    rw [LogRecord.layout_append, h.records, h.fileSize]
    rfl
  · rw [List.map_append, Consecutive.append_iff, List.length_map]
    exact ⟨h.consecutive, Consecutive.cons_iff.mpr ⟨hnext, Consecutive.nil⟩⟩
  · change s.segment.fileSize + r.entry.footprint = _
    rw [h.fileSize, List.map_append, List.sum_append, Nat.add_assoc]
    simp

theorem next_taken (hnext : r.entry.index.toNat = s.segment.start.toNat + entries.length)
    (hbound : r.entry.index.toNat + 1 < UInt64.size) :
    (s.taken r cache refs).segment.next.toNat =
      s.segment.start.toNat + (entries ++ [r.entry]).length := by
  change (r.entry.index + 1).toNat = _
  rw [toNat_add_one hbound, hnext, List.length_append]
  rfl

theorem holds_taken (h : s.segment.Holds entries)
    (hnext : r.entry.index.toNat = s.segment.start.toNat + entries.length)
    (hbound : r.entry.index.toNat + 1 < UInt64.size) :
    (s.taken r cache refs).segment.Holds (entries ++ [r.entry]) := by
  have hlaid : (s.taken r cache refs).segment.LaysOut headerSize (entries ++ [r.entry]) :=
    laysOut_taken h.laysOut hnext
  exact ⟨hlaid.records, hlaid.consecutive, hlaid.fileSize, fun _ => next_taken hnext hbound⟩

/-! ## What stays when an entry is not taken in -/

theorem guarded_within {α : Type} (result : Except Fault α) :
    Within (fun s : Session => s.disk) Failure.IsFault (guarded result) := by
  cases result with
  | error cause => exact .throw ⟨cause, rfl⟩
  | ok a => exact .pure a

theorem onIndex_within {α : Type} (m : SegmentIndex.Step α) :
    Within (fun s : Session => s.disk) Failure.IsFault (onIndex m) := by
  intro s
  unfold onIndex
  cases m s.segment.index with
  | error cause index => exact ⟨rfl, cause, rfl⟩
  | ok a index => rfl

theorem cacheEntry_within (r : EntryRef) (purpose : SizePurpose) :
    Within (fun s : Session => s.disk) Failure.IsFault (cacheEntry r purpose) := by
  intro s
  rw [cacheEntry, get_bind]
  cases s.segment.cache.put s.refs r.entry.key r purpose with
  | error cause => exact ⟨rfl, cause, rfl⟩
  | ok p => rfl

theorem account_within (purpose : SizePurpose) (e : LogEntry) (index : UInt64) :
    Within (fun s : Session => s.disk) Failure.IsFault (account purpose e index) := by
  refine .bind (guarded_within _) fun size => .bind (.modify fun _ => rfl) fun _ => ?_
  exact .bind (guarded_within _) fun next => .bind (.modify fun _ => rfl) fun _ =>
    .modify fun _ => rfl

/-- Whether an entry gets in or not, the disk is not touched. -/
theorem take_within (purpose : SizePurpose) (r : EntryRef) (keep : Bool) :
    Within (fun s : Session => s.disk) Failure.IsFault (take purpose r keep) := by
  intro s
  rw [take_eq]
  refine Within.bind (onIndex_within _) (fun index => .ite ?_ ?_) s
  · exact .bind (cacheEntry_within r purpose) fun _ => account_within purpose r.entry index
  · exact account_within purpose r.entry index

end Session

end SegmentedLog
