import SegmentedLog.Proofs.SegmentRuns

/-! # Appends that are refused

A segment stays in use after a call that broke a rule of use, so what such a call leaves behind
matters. An append checks the index first and puts the record in before it measures the entry and
looks for the index behind it. Where one of these two fails, the record stays without an entry. The
size of the file is added up within 64 bits as long as all entries ever appended are within them.
-/

namespace SegmentedLog

open Stepwise

namespace Segment

/-- Whether an append of the entry is broken off: the entry comes right behind the records of an
open segment, but may not be measured, or no index comes behind its own. -/
def BreaksOff (seg : Segment) (purpose : SizePurpose) (e : LogEntry) : Prop :=
  seg.isOpen = true ∧ e.index.toNat = seg.start.toNat + seg.records.length ∧
    (¬ purpose.Admits e ∨ e.index.toNat + 1 = UInt64.size)

instance (seg : Segment) (purpose : SizePurpose) (e : LogEntry) :
    Decidable (seg.BreaksOff purpose e) := inferInstanceAs (Decidable (_ ∧ _))

/-- Whether neither the size of the file nor the place of a record is beyond a bound. -/
structure EndsBy (bound : Nat) (seg : Segment) : Prop where
  fileSize : seg.fileSize ≤ bound
  offsets : ∀ record ∈ seg.records, record.offset ≤ bound

variable {seg seg' : Segment} {bound bound' : Nat}

theorem EndsBy.mono (h : seg.EndsBy bound) (hle : bound ≤ bound') : seg.EndsBy bound' :=
  ⟨h.fileSize.trans hle, fun record hrecord => (h.offsets record hrecord).trans hle⟩

theorem EndsBy.of_books (h : seg.EndsBy bound) (hbooks : seg'.books = seg.books) :
    seg'.EndsBy bound := by
  obtain ⟨-, -, hsize, hindex⟩ := Books.mk.inj hbooks
  have hrecords : seg'.records = seg.records := congrArg SegmentIndex.records hindex
  exact ⟨hsize ▸ h.fileSize, hrecords ▸ h.offsets⟩

theorem Spans.endsBy {base : Nat} {entries : List LogEntry} (h : seg.Spans base entries) :
    seg.EndsBy seg.fileSize := by
  refine ⟨le_rfl, fun record hrecord => ?_⟩
  rw [h.records] at hrecord
  rw [h.fileSize]
  exact LogRecord.offset_le_of_mem_layout hrecord

end Segment

namespace Session

variable {s t : Session} {r : EntryRef} {e : LogEntry} {purpose : SizePurpose} {cause : Failure}
  {base n next : Nat} {entries : List LogEntry} {first : UInt64}

/-! ## One append -/

theorem append_of_closed (hopen : s.segment.isOpen = false) :
    append purpose r s = .error (.fault (.appendToClosed s.segment.name)) s := by
  rw [append, get_bind, hopen]
  rfl

theorem append_of_open (hopen : s.segment.isOpen = true) :
    append purpose r s = take purpose r true s := by
  rw [append, get_bind, hopen]
  rfl

/-- An entry that is not the next one is refused before anything is changed. -/
theorem append_of_not_next (h : s.segment.index.Contiguous) (purpose : SizePurpose)
    (hnext : r.entry.index.toNat ≠ s.segment.start.toNat + s.segment.records.length) :
    ∃ cause, append purpose r s = .error cause s := by
  cases hopen : s.segment.isOpen with
  | false => exact ⟨_, append_of_closed hopen⟩
  | true =>
    obtain ⟨cause, hindex⟩ := SegmentIndex.Contiguous.append_eq_error
      (r := .of s.segment.fileSize r.entry) h hnext
    have hrefused : onIndex (SegmentIndex.append (.of s.segment.fileSize r.entry)) s =
        .error (.fault cause) s := by
      rw [onIndex, hindex]
    exact ⟨.fault cause, by rw [append_of_open hopen, take_eq, bind_of_error hrefused]⟩

/-- The next entry gets in if it may be measured and there is an index behind its own. -/
theorem append_of_next (h : s.segment.index.Contiguous) (hopen : s.segment.isOpen = true)
    (hnext : r.entry.index.toNat = s.segment.start.toNat + s.segment.records.length)
    (hadmits : purpose.Admits r.entry) (hbound : r.entry.index.toNat + 1 < UInt64.size) :
    ∃ t, append purpose r s = .ok () t := by
  obtain ⟨cache, refs, hcache⟩ := exists_cachesTo s true hadmits
  refine ⟨s.taken r cache refs, ?_⟩
  rw [append_of_open hopen]
  exact (take_eq_ok_of_contiguous h).mpr ⟨hnext, hadmits, hbound, cache, refs, hcache, rfl⟩

theorem append_of_not_breaksOff (h : s.segment.index.Contiguous)
    (hbreaks : ¬ s.segment.BreaksOff purpose r.entry)
    (hfail : append purpose r s = .error cause t) : t = s := by
  cases hopen : s.segment.isOpen with
  | false =>
    rw [append_of_closed hopen] at hfail
    cases hfail
    rfl
  | true =>
    by_cases hnext : r.entry.index.toNat = s.segment.start.toNat + s.segment.records.length
    · have hlt : r.entry.index.toNat < UInt64.size := r.entry.index.toNat_lt
      have hgoes : ¬ (¬ purpose.Admits r.entry ∨ r.entry.index.toNat + 1 = UInt64.size) :=
        fun hstops => hbreaks ⟨hopen, hnext, hstops⟩
      rw [not_or, not_not] at hgoes
      obtain ⟨u, hok⟩ := append_of_next h hopen hnext hgoes.1 (by omega)
      cases hfail.symm.trans hok
    · obtain ⟨_, hrefused⟩ := append_of_not_next h purpose hnext
      cases hfail.symm.trans hrefused
      rfl

def recorded (s : Session) (e : LogEntry) : Session :=
  { s with segment := { s.segment with index := { s.segment.index with
      records := s.segment.records ++ [.of s.segment.fileSize e] } } }

/-- What an append leaves that is broken off: the record, but not the index behind it. -/
structure Stuck (s : Session) (e : LogEntry) (t : Session) : Prop where
  follows : e.index.toNat = s.segment.start.toNat + s.segment.records.length
  index : t.segment.index = (s.recorded e).segment.index
  next : t.segment.next = s.segment.next
  fileSize : t.segment.fileSize ≤ s.segment.fileSize + e.footprint

theorem cacheEntry_of_not_admits (h : ¬ purpose.Admits r.entry) :
    cacheEntry r purpose s = .error (.fault (.stateData purpose r.entry.key)) s := by
  rw [cacheEntry, get_bind, Cache.put_of_not_admits h]
  rfl

/-- An entry without an index behind its own is accounted for in the size of the file only. -/
theorem account_of_last {index : UInt64} (hadmits : purpose.Admits e)
    (hlast : index.toNat + 1 = UInt64.size) : account purpose e index s = .error (.fault .overflow)
      { s with segment := { s.segment with fileSize := s.segment.fileSize + e.footprint } } := by
  have hsize : e.sizeFor purpose = .ok e.footprint := if_pos hadmits
  have hnext : nextIndex index = .error .overflow := if_neg (by rw [hlast]; exact lt_irrefl _)
  rw [account, bind_of_ok (guarded_eq_ok.mpr ⟨hsize, rfl⟩), bind_of_ok (update_eq_ok.mpr rfl),
    hnext]
  rfl

theorem append_of_breaksOff (h : s.segment.index.Contiguous)
    (hbreaks : s.segment.BreaksOff purpose r.entry) :
    ∃ cause t, append purpose r s = .error cause t ∧ s.Stuck r.entry t := by
  obtain ⟨hopen, hnext, hstops⟩ := hbreaks
  have hindex : onIndex (SegmentIndex.append (.of s.segment.fileSize r.entry)) s =
      .ok r.entry.index (s.recorded r.entry) :=
    onIndex_eq_ok.mpr ⟨_, h.append_eq_ok.mpr ⟨hnext, rfl, rfl⟩, rfl⟩
  rw [append_of_open hopen, take_eq, bind_of_ok hindex, if_pos rfl]
  by_cases hadmits : purpose.Admits r.entry
  · obtain ⟨cache, refs, hput⟩ := exists_cachesTo s true hadmits
    have hcached : cacheEntry r purpose (s.recorded r.entry) = .ok () _ :=
      cacheEntry_eq_ok.mpr ⟨cache, refs, hput, rfl⟩
    have hlast := hstops.resolve_left (not_not.mpr hadmits)
    exact ⟨_, _, (bind_of_ok hcached).trans (account_of_last hadmits hlast), hnext, rfl, rfl,
      le_rfl⟩
  · exact ⟨_, _, bind_of_error (cacheEntry_of_not_admits hadmits), hnext, rfl, rfl,
      Nat.le_add_right _ _⟩

theorem Stuck.contiguous (hstuck : s.Stuck e t) (h : s.segment.index.Contiguous) :
    t.segment.index.Contiguous := by
  rw [hstuck.index]
  exact SegmentIndex.contiguous_append h hstuck.follows

/-- However an append ends, the records stay contiguous. -/
theorem append_leaves_contiguous (h : s.segment.index.Contiguous) (purpose : SizePurpose)
    (r : EntryRef) : Leaves (·.segment.index.Contiguous) (append purpose r) s := by
  unfold Leaves
  cases happend : append purpose r s with
  | ok u t =>
    obtain ⟨hnext, -, -, cache, refs, -, rfl⟩ :=
      (take_eq_ok_of_contiguous h).mp (append_eq_ok.mp happend).2
    exact SegmentIndex.contiguous_append h hnext
  | error cause t =>
    by_cases hbreaks : s.segment.BreaksOff purpose r.entry
    · obtain ⟨_, _, hstopped, hstuck⟩ := append_of_breaksOff h hbreaks
      cases happend.symm.trans hstopped
      exact hstuck.contiguous h
    · rw [append_of_not_breaksOff h hbreaks happend]
      exact h

/-! ## After an append that was broken off -/

theorem Stuck.records (h : s.Stuck e t) :
    t.segment.records = s.segment.records ++ [.of s.segment.fileSize e] :=
  congrArg SegmentIndex.records h.index

theorem Stuck.start (h : s.Stuck e t) : t.segment.start = s.segment.start := by
  rw [Segment.start, h.index]
  rfl

/-- The index that is next for the segment is not next for its records any more. -/
theorem Stuck.append_eq_error (hstuck : s.Stuck e t) (hspans : s.segment.Spans base entries)
    (purpose : SizePurpose) (hvalid : r.entry.index = t.segment.next) :
    ∃ cause, append purpose r t = .error cause t := by
  refine append_of_not_next (hstuck.contiguous hspans.contiguous) purpose ?_
  rw [hvalid, hstuck.next, hspans.next, hstuck.start, hstuck.records, List.length_append,
    hspans.length_records]
  simp

/-- A record with another index than expected stops the taking off. -/
theorem takeOff_of_other {last : LogRecord} (hlast : s.segment.index.last? = some last)
    (hother : last.index ≠ UInt64.ofNat (next - 1)) :
    ∃ cause t, takeOff next (n + 1) s = .error cause t := by
  rw [takeOff, bind_of_ok (onIndex_removeLast hlast), if_pos hother]
  exact ⟨_, _, rfl⟩

/-- Records are taken off one by one, and one that was not expected is gone as well. -/
theorem takeOff_leaves {I : Session → Prop} (hoff : ∀ (s : Session) (last : LogRecord),
      s.segment.index.last? = some last → I s →
      I { s with segment := { s.segment with
        index := { s.segment.index with records := s.segment.index.records.dropLast } } } ∧
      I (s.shortened s.segment.index.records.dropLast last))
    (h : I s) (next n : Nat) : Leaves I (takeOff next n) s := by
  induction n generalizing s next with
  | zero => exact h
  | succ n ih =>
    unfold Leaves
    cases hlast : s.segment.index.last? with
    | none =>
      have hempty : onIndex SegmentIndex.removeLast s = .error (.fault .emptyIndex) s := by
        rw [onIndex, SegmentIndex.removeLast, get_bind, hlast]
        rfl
      rw [takeOff, bind_of_error hempty]
      exact h
    | some last =>
      rw [takeOff, bind_of_ok (onIndex_removeLast hlast)]
      by_cases hother : last.index ≠ UInt64.ofNat (next - 1)
      · rw [if_pos hother]
        exact (hoff s last hlast h).1
      · rw [if_neg hother]
        exact ih (hoff s last hlast h).2 (next - 1)

theorem takeOff_leaves_contiguous (h : s.segment.index.Contiguous) (next n : Nat) :
    Leaves (·.segment.index.Contiguous) (takeOff next n) s :=
  takeOff_leaves (I := fun s => s.segment.index.Contiguous) (fun _ _ _ hs =>
    ⟨SegmentIndex.contiguous_dropLast hs, SegmentIndex.contiguous_dropLast hs⟩) h next n

theorem truncate_leaves_contiguous (h : s.segment.index.Contiguous) (first : UInt64) :
    Leaves (·.segment.index.Contiguous) (truncate first) s := by
  refine .get_bind (.ite (fun _ => ?_) fun _ => h)
  exact (takeOff_leaves_contiguous h _ _).bind fun _ _ _ h' => h'

/-- Every record that is taken off was within the bound that the size goes back to. -/
theorem takeOff_leaves_endsBy {bound : Nat} (h : s.segment.EndsBy bound) (next n : Nat) :
    Leaves (·.segment.EndsBy bound) (takeOff next n) s := by
  refine takeOff_leaves (fun s last hlast hs => ?_) h next n
  have hfront : ∀ record ∈ s.segment.index.records.dropLast, record.offset ≤ bound :=
    fun record hrecord => hs.offsets record (List.mem_of_mem_dropLast hrecord)
  exact ⟨⟨hs.fileSize, hfront⟩, hs.offsets last (List.mem_of_getLast? hlast), hfront⟩

theorem append_leaves_endsBy {bound : Nat} (hcontiguous : s.segment.index.Contiguous)
    (h : s.segment.EndsBy bound) (purpose : SizePurpose) (r : EntryRef) :
    Leaves (·.segment.EndsBy (bound + r.entry.footprint)) (append purpose r) s := by
  have hrecords : ∀ record ∈ s.segment.records ++ [.of s.segment.fileSize r.entry],
      record.offset ≤ bound + r.entry.footprint := by
    intro record hrecord
    rcases List.mem_append.mp hrecord with hold | hnew
    · exact (h.offsets record hold).trans (Nat.le_add_right _ _)
    · rw [List.mem_singleton.mp hnew]
      exact h.fileSize.trans (Nat.le_add_right _ _)
  have hsize := Nat.add_le_add_right h.fileSize r.entry.footprint
  unfold Leaves
  cases happend : append purpose r s with
  | ok _ t =>
    obtain ⟨-, -, -, cache, refs, -, rfl⟩ :=
      (take_eq_ok_of_contiguous hcontiguous).mp (append_eq_ok.mp happend).2
    exact ⟨hsize, hrecords⟩
  | error cause t =>
    by_cases hbreaks : s.segment.BreaksOff purpose r.entry
    · obtain ⟨_, _, hstopped, hstuck⟩ := append_of_breaksOff hcontiguous hbreaks
      cases happend.symm.trans hstopped
      exact ⟨hstuck.fileSize.trans hsize, hstuck.records ▸ hrecords⟩
    · rw [append_of_not_breaksOff hcontiguous hbreaks happend]
      exact h.mono (Nat.le_add_right _ _)

def Accounted (s : Session) : Prop := ∃ base entries, s.segment.Spans base entries

theorem Accounted.contiguous (h : s.Accounted) : s.segment.index.Contiguous := by
  obtain ⟨base, entries, hspans⟩ := h
  exact hspans.contiguous

theorem contiguous_of_lasting (h : s.segment.index.Contiguous) (hlasting : t.lasting = s.lasting) :
    t.segment.index.Contiguous := by
  have hindex : t.segment.index = s.segment.index := congrArg (·.1.index) hlasting
  rw [hindex]
  exact h

theorem Accounted.of_lasting (h : s.Accounted) (hlasting : t.lasting = s.lasting) :
    t.Accounted := by
  obtain ⟨base, entries, hspans⟩ := h
  exact ⟨base, entries, hspans.of_books (congrArg Prod.fst hlasting)⟩

end Session

namespace Call

variable {call : Call} {s : Session}

theorem step_leaves_contiguous (h : s.segment.index.Contiguous) (call : Call) :
    Leaves (·.segment.index.Contiguous) call.step s := by
  cases call with
  | append purpose r sink? => exact Session.append_leaves_contiguous h purpose r
  | close => exact .get_bind (.ite (fun _ => h) fun _ => h)
  | truncate first => exact Session.truncate_leaves_contiguous h first
  | clear => exact Consecutive.nil
  | evict | lookUp | load =>
    exact .of_kept (step_within rfl) fun _ => Session.contiguous_of_lasting h

def footprint : Call → Nat
  | append _ r _ => r.entry.footprint
  | close | truncate _ | clear | evict | lookUp _ | load _ => 0

theorem step_leaves_endsBy {bound : Nat} (hcontiguous : s.segment.index.Contiguous)
    (h : s.segment.EndsBy bound) (call : Call) :
    Leaves (·.segment.EndsBy (bound + call.footprint)) call.step s := by
  cases call with
  | append purpose r sink? => exact Session.append_leaves_endsBy hcontiguous h purpose r
  | close => exact .get_bind (.ite (fun _ => ⟨h.fileSize, h.offsets⟩) fun _ => h)
  | truncate first =>
    refine .get_bind (.ite (fun _ => ?_) fun _ => h)
    exact (Session.takeOff_leaves_endsBy h _ _).bind fun _ _ _ h' => ⟨h'.fileSize, h'.offsets⟩
  | clear => exact ⟨h.fileSize, nofun⟩
  | evict | lookUp | load =>
    exact .of_kept (step_within rfl) fun _ hlasting => h.of_books (congrArg Prod.fst hlasting)

def BreaksOff (call : Call) (seg : Segment) : Prop :=
  match call with
  | append purpose r _ => seg.BreaksOff purpose r.entry
  | _ => False

instance (call : Call) (seg : Segment) : Decidable (call.BreaksOff seg) := by
  unfold BreaksOff
  split <;> infer_instance

def passed (call : Call) (c : Client) : Session :=
  { c.session with sink := (call.sink?.map c.sinks).getD .absent }

/-- What a call leaves, also where it breaks a rule of use. -/
def attempt (call : Call) (c : Client) : Client :=
  let s := left call.step (call.passed c)
  { session := s
    sinks := fun k => if call.sink? = some k then s.sink else c.sinks k }

end Call

namespace Client

variable {c c' : Client} {calls : List Call} {purpose : SizePurpose} {r : EntryRef}
  {cause : Failure} {t : Session}

/-- Runs of calls that may break rules of use, whatever happens beside them. -/
abbrev Attempts (c : Client) (calls : List Call) (c' : Client) : Prop :=
  Stepwise.Run (fun call c => some (call.attempt c)) Meanwhile c calls c'

theorem contiguous_of_attempts (h : c.segment.index.Contiguous) (hrun : c.Attempts calls c') :
    c'.segment.index.Contiguous := by
  induction hrun with
  | nil => exact h
  | @act _ call u _ _ hcall ih =>
    cases hcall
    exact (Call.step_leaves_contiguous (s := call.passed u) ih call).holds_left
  | env _ hmeanwhile ih =>
    obtain ⟨disk, refs, metrics, rfl⟩ := hmeanwhile
    exact ih

/-- The file never gets larger than it was at first and all entries together that were appended
since, those included that were refused. -/
theorem endsBy_of_attempts {bound : Nat} (hcontiguous : c.segment.index.Contiguous)
    (h : c.segment.EndsBy bound) (hrun : c.Attempts calls c') :
    c'.segment.EndsBy (bound + (calls.map (·.footprint)).sum) := by
  induction hrun with
  | nil => exact h
  | @act _ call u _ hrest hcall ih =>
    cases hcall
    rw [List.map_append, List.sum_append, ← Nat.add_assoc]
    exact (Call.step_leaves_endsBy (s := call.passed u)
      (contiguous_of_attempts hcontiguous hrest) ih call).holds_left
  | env _ hmeanwhile ih =>
    obtain ⟨disk, refs, metrics, rfl⟩ := hmeanwhile
    exact ih

/-- An append adds to the size of the file within 64 bits as long as all that was ever appended is
within them. -/
theorem fileSize_add_toNat (horigin : c.segment.Origin) (hrun : c.Attempts calls c')
    (e : LogEntry)
    (hbound : c.segment.fileSize + (calls.map (·.footprint)).sum + e.footprint < UInt64.size) :
    (UInt64.ofNat c'.segment.fileSize + UInt64.ofNat e.footprint).toNat =
      c'.segment.fileSize + e.footprint := by
  obtain ⟨entries, hspans⟩ := horigin.spans
  have hsize := (endsBy_of_attempts hspans.contiguous hspans.endsBy hrun).fileSize
  rw [UInt64.toNat_add, UInt64.toNat_ofNat', UInt64.toNat_ofNat', ← Nat.add_mod,
    Nat.mod_eq_of_lt (by unfold UInt64.size at hbound; omega)]

end Client

end SegmentedLog
