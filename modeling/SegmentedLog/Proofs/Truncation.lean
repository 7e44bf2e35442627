import SegmentedLog.Proofs.CacheSizes
import SegmentedLog.Proofs.Custody
import SegmentedLog.Proofs.SegmentRuns

/-! # Truncation undoes appends

Entries that were appended to a new segment can be taken off again: from any index on the segment
comes to what the appends before that index make of a new one. The cache gives up what it holds
under the keys of the records that are taken off, each reference once, and keeps the rest as it is.
Taking off in two steps is taking off at once.
-/

namespace SegmentedLog

open Stepwise

namespace Cache

variable {c c' c'' : Cache} {refs refs' refs'' : RefCounts} {keys more : List TermIndex}
  {key : TermIndex} {others : List EntryRef}

/-! ## What a cache gives up -/

def under (c : Cache) (keys : List TermIndex) : List Slot := c.slots.filter (·.key ∈ keys)

/-- Whether a cache gave up what it held under some keys and nothing else, each reference once. -/
structure Sheds (c : Cache) (refs : RefCounts) (keys : List TermIndex) (c' : Cache)
    (refs' : RefCounts) : Prop where
  slots : c'.slots = c.slots.filter (·.key ∉ keys)
  isClosed : c'.isClosed = c.isClosed
  released : ∃ rs : List EntryRef, rs.Perm ((c.under keys).map (·.ref)) ∧
    refs' = refs.releaseAll rs

theorem sheds_nil (c : Cache) (refs : RefCounts) : c.Sheds refs [] c refs := by
  refine ⟨?_, rfl, [], ?_, rfl⟩
  · simp
  · simp [under]

/-- What there is under some keys and then under others is what there is under all of them. -/
theorem filter_append_filter_perm (slots : List Slot) (keys more : List TermIndex) :
    (slots.filter (·.key ∈ keys) ++ (slots.filter (·.key ∉ keys)).filter (·.key ∈ more)).Perm
      (slots.filter (·.key ∈ keys ++ more)) := by
  induction slots with
  | nil => exact .nil
  | cons slot slots ih =>
    by_cases hkeys : slot.key ∈ keys
    · simpa [hkeys] using ih
    · by_cases hmore : slot.key ∈ more
      · simpa [hkeys, hmore] using List.perm_middle.trans (ih.cons slot)
      · simpa [hkeys, hmore] using ih

theorem Sheds.trans (h : c.Sheds refs keys c' refs') (h' : c'.Sheds refs' more c'' refs'') :
    c.Sheds refs (keys ++ more) c'' refs'' := by
  obtain ⟨rs, hrs, rfl⟩ := h.released
  obtain ⟨rs', hrs', rfl⟩ := h'.released
  refine ⟨?_, h'.isClosed.trans h.isClosed, rs ++ rs', ?_, (List.foldl_append ..).symm⟩
  · rw [h'.slots, h.slots, List.filter_filter]
    refine List.filter_congr fun slot _ => ?_
    by_cases hslot : slot.key ∈ keys <;> simp [hslot]
  · have hboth := (hrs.append hrs').trans (List.Perm.of_eq (List.map_append ..).symm)
    rw [under, under, h.slots] at hboth
    exact hboth.trans ((filter_append_filter_perm c.slots keys more).map _)

theorem Sheds.congr (h : c.Sheds refs keys c' refs') (hkeys : ∀ key, key ∈ keys ↔ key ∈ more) :
    c.Sheds refs more c' refs' := by
  refine ⟨h.slots.trans ?_, h.isClosed, ?_⟩
  · simp only [hkeys]
  · obtain ⟨rs, hrs, hreleased⟩ := h.released
    refine ⟨rs, ?_, hreleased⟩
    simpa only [under, hkeys] using hrs

theorem under_singleton (hkeys : (c.slots.map (·.key)).Nodup) :
    c.under [key] = (c.find? key).toList := by
  rw [under, find?]
  simp only [List.mem_singleton]
  generalize c.slots = slots at hkeys
  induction slots with
  | nil => rfl
  | cons slot slots ih =>
    rw [List.map_cons, List.nodup_cons] at hkeys
    by_cases hslot : slot.key = key
    · have hnone : slots.filter (·.key = key) = [] := by
        refine List.filter_eq_nil_iff.mpr fun other hother heq => hkeys.1 ?_
        rw [hslot, ← of_decide_eq_true heq]
        exact List.mem_map_of_mem hother
      rw [List.filter_cons_of_pos (by simpa using hslot), hnone,
        List.find?_cons_of_pos (by simpa using hslot)]
      rfl
    · rw [List.filter_cons_of_neg (by simpa using hslot), ih hkeys.2,
        List.find?_cons_of_neg (by simpa using hslot)]

theorem sheds_remove (hkeys : (c.slots.map (·.key)).Nodup) (refs : RefCounts) (key : TermIndex) :
    c.Sheds refs [key] (c.remove refs key).1 (c.remove refs key).2 := by
  refine ⟨?_, isClosed_remove, _, .refl _, ?_⟩
  · simp only [slots_remove, List.mem_singleton]
  · rw [under_singleton hkeys, remove]
    cases c.find? key <;> rfl

theorem sheds_removeAll (hkeys : (c.slots.map (·.key)).Nodup) (refs : RefCounts)
    (keys : List TermIndex) :
    c.Sheds refs keys (c.removeAll refs keys).1 (c.removeAll refs keys).2 := by
  induction keys generalizing c refs with
  | nil => exact sheds_nil c refs
  | cons key keys ih =>
    exact (sheds_remove hkeys refs key).trans (ih (nodup_keys_remove hkeys refs key) _)

/-- The cache gets smaller by the space of what it gave up. -/
theorem Sheds.footprint (h : c.Sheds refs keys c' refs') :
    c.footprint = c'.footprint + ((c.under keys).map (·.ref.entry.footprint)).sum := by
  have hperm := List.filter_append_perm (fun slot : Slot => slot.key ∈ keys) c.slots
  have hsum := (hperm.map (·.ref.entry.footprint)).sum_eq
  rw [List.map_append, List.sum_append] at hsum
  rw [Cache.footprint, Cache.footprint, refsHeld, refsHeld, h.slots, List.map_map, List.map_map,
    under]
  simp only [decide_not]
  rw [Nat.add_comm]
  exact hsum.symm

/-- References to what a cache gave up are held by the others alone. -/
theorem Sheds.balanced (h : c.Sheds refs keys c' refs') (hc : c.Balanced refs others) :
    c'.Balanced refs' others ∧
      ∀ r, refs.count r = refs'.count r + (c.under keys).countP (·.ref.Same r) := by
  obtain ⟨rs, hrs, rfl⟩ := h.released
  have hperm : c.refsHeld.Perm (rs ++ c'.refsHeld) := by
    have hsplit := (List.filter_append_perm (fun slot : Slot => slot.key ∈ keys) c.slots).symm.map
      (·.ref)
    rw [List.map_append] at hsplit
    refine hsplit.trans (hrs.symm.append (.of_eq ?_))
    rw [refsHeld, h.slots]
    simp only [decide_not]
  have hafter : c'.Balanced (refs.releaseAll rs) others := by
    refine ⟨?_, RefCounts.Balances.releaseAll (hc.balances.perm ?_)⟩
    · rw [h.slots]
      exact hc.keys.sublist (List.filter_sublist.map _)
    · rw [← List.append_assoc]
      exact hperm.append_right others
  refine ⟨hafter, fun r => ?_⟩
  rw [hc.balances r, hafter.balances r, List.countP_append, List.countP_append, hperm.countP_eq,
    List.countP_append, hrs.countP_eq, List.countP_map]
  simp only [Function.comp_def]
  omega

theorem counted_invariant : Invariant fun c _ => c.Counted :=
  ⟨fun _ => Counted.put, fun key hc => hc.remove _ key, fun hc => hc.evict _, fun hc => hc.close _⟩

end Cache

namespace Segment

variable {seg seg' : Segment} {base : Nat} {entries : List LogEntry}

theorem Spans.books_eq (h : seg.Spans base entries) (h' : seg'.Spans base entries)
    (hstart : seg.start = seg'.start) (hopen : seg.isOpen = seg'.isOpen) :
    seg.books = seg'.books := by
  have hnext : seg.next = seg'.next := UInt64.toNat_inj.mp (by rw [h.next, h'.next, hstart])
  have hindex : seg.index = seg'.index := by
    have hrecords : seg.index.records = seg'.index.records := h.records.trans h'.records.symm
    have hstart' : seg.index.start = seg'.index.start := hstart
    cases hindex : seg.index
    cases hindex' : seg'.index
    simp_all
  rw [books, books, hopen, hnext, h.fileSize, h'.fileSize, hindex]

end Segment

namespace Session

variable {s t : Session} {r : EntryRef} {purpose : SizePurpose} {entries : List LogEntry}
  {base n m : Nat} {first second : UInt64}

/-- What an open segment takes: the next entry, if it may be measured and is not the last one there
can be. -/
theorem exists_append_iff (h : s.segment.Spans base entries) :
    (∃ t, append purpose r s = .ok () t) ↔ s.segment.isOpen = true ∧
      r.entry.index.toNat = s.segment.start.toNat + entries.length ∧ purpose.Admits r.entry ∧
      r.entry.index.toNat + 1 < UInt64.size := by
  simp only [append_eq_ok, take_eq_ok_of_contiguous h.contiguous, h.length_records]
  constructor
  · rintro ⟨t, hopen, hnext, hadmits, hbound, -⟩
    exact ⟨hopen, hnext, hadmits, hbound⟩
  · rintro ⟨hopen, hnext, hadmits, hbound⟩
    obtain ⟨cache, refs, hcaches⟩ := exists_cachesTo s true hadmits
    exact ⟨_, hopen, hnext, hadmits, hbound, cache, refs, hcaches, rfl⟩

/-- Taking off more records after some is taking them all off. -/
theorem trimmed_trimmed (hmn : m ≤ n) (hn : n ≤ s.segment.records.length) :
    (s.trimmed n).trimmed m = s.trimmed m := by
  have hrecords : (s.trimmed n).segment.records = s.segment.records.take n := rfl
  have hdrop : s.segment.records.drop m =
      (s.segment.records.take n).drop m ++ s.segment.records.drop n := by
    conv_lhs => rw [← List.take_append_drop n s.segment.records]
    rw [List.drop_append_of_le_length (by rw [List.length_take]; omega)]
  have hcache : (s.trimmed n).segment.cache.removeAll (s.trimmed n).refs
        (((s.segment.records.take n).drop m).reverse.map (·.key)) =
      s.segment.cache.removeAll s.refs ((s.segment.records.drop m).reverse.map (·.key)) := by
    rw [hdrop, List.reverse_append, List.map_append, Cache.removeAll_append]
    rfl
  have hsize : (((s.segment.records.take n).drop m).head?.map (·.offset)).getD
        (s.trimmed n).segment.fileSize =
      ((s.segment.records.drop m).head?.map (·.offset)).getD s.segment.fileSize := by
    rw [hdrop]
    cases (s.segment.records.take n).drop m <;> rfl
  have htake : (s.segment.records.take n).take m = s.segment.records.take m := by
    rw [List.take_take, Nat.min_eq_left hmn]
  conv_lhs => rw [trimmed]
  simp only [hrecords, hcache, hsize, htake]
  conv_rhs => rw [trimmed]
  rfl

def closedAt (s : Session) (next : UInt64) : Session :=
  { s with segment := { s.segment with isOpen := false, next } }

theorem truncated_eq (s : Session) (first : UInt64) :
    s.truncated first = (s.trimmed (first.toNat - s.segment.start.toNat)).closedAt first := rfl

theorem trimmed_closedAt (s : Session) (next : UInt64) (n : Nat) :
    (s.closedAt next).trimmed n = (s.trimmed n).closedAt next := rfl

theorem truncated_truncated (h : s.segment.Spans base entries) (hfirst : s.segment.Contains first)
    (hlt : second < first) : (s.truncated first).truncated second = s.truncated second := by
  have hstart := UInt64.le_iff_toNat_le.mp hfirst.1
  have hnext := UInt64.lt_iff_toNat_lt.mp hfirst.2
  have hsecond := UInt64.lt_iff_toNat_lt.mp hlt
  have hlength := h.length_records
  have hcount := h.next
  have htrimmed := trimmed_trimmed (s := s) (m := second.toNat - s.segment.start.toNat)
    (n := first.toNat - s.segment.start.toNat) (by omega) (by omega)
  have hsame : (s.truncated first).segment.start = s.segment.start := rfl
  rw [truncated_eq _ second, hsame, truncated_eq s first, trimmed_closedAt, htrimmed]
  rfl

def keysFrom (s : Session) (first : UInt64) : List TermIndex :=
  (s.segment.records.filter (first ≤ ·.index)).map (·.key)

theorem sheds_truncated (h : s.segment.Spans base entries)
    (hkeys : (s.segment.cache.slots.map (·.key)).Nodup) (first : UInt64) :
    s.segment.cache.Sheds s.refs (s.keysFrom first) (s.truncated first).segment.cache
      (s.truncated first).refs := by
  have hremoved : s.segment.records.filter (first ≤ ·.index) =
      s.segment.records.drop (first.toNat - s.segment.start.toNat) :=
    h.contiguous.filter_le first
  refine (Cache.sheds_removeAll hkeys s.refs _).congr fun key => ?_
  rw [keysFrom, hremoved, List.map_reverse, List.mem_reverse]

/-- What a truncation does to the cache: it loses what is held under the keys of the records that
are taken off, and gets smaller by the sizes of that. -/
structure Loses (s : Session) (first : UInt64) (t : Session) : Prop where
  sheds : s.segment.cache.Sheds s.refs (s.keysFrom first) t.segment.cache t.refs
  size : s.segment.cache.size = (t.segment.cache.size +
    ((s.segment.cache.under (s.keysFrom first)).map (·.size)).sum) % UInt64.size
  /-- While the sizes of all that was cached fit into the total, nothing wraps. -/
  fits : s.segment.cache.footprint < UInt64.size → s.segment.cache.size =
    t.segment.cache.size + ((s.segment.cache.under (s.keysFrom first)).map (·.size)).sum
  /-- If nothing but what is held was counted, the counts are lower by what the cache lost. -/
  counts : ∀ others, s.Balanced others → t.Balanced others ∧ ∀ r, s.refs.count r =
    t.refs.count r + (s.segment.cache.under (s.keysFrom first)).countP (·.ref.Same r)

theorem loses_truncated (h : s.segment.Spans base entries) (hfirst : s.segment.Contains first)
    (hcounted : s.segment.cache.Counted) : s.Loses first (s.truncated first) := by
  have hsheds := sheds_truncated h hcounted.keys first
  have hafter : (s.truncated first).segment.cache.Counted :=
    (leaves_truncate Cache.counted_invariant first hcounted).of_ok (truncate_of_contains h hfirst)
  have hsizes : (s.segment.cache.under (s.keysFrom first)).map (·.size) =
      (s.segment.cache.under (s.keysFrom first)).map (·.ref.entry.footprint) :=
    List.map_congr_left fun slot hslot => hcounted.sizes slot (List.mem_filter.mp hslot).1
  have hfootprint := hsheds.footprint
  rw [← hsizes] at hfootprint
  refine ⟨hsheds, ?_, fun hfits => ?_, fun others hs => hsheds.balanced hs⟩
  · rw [hcounted.size, hafter.size, hfootprint, Nat.mod_add_mod]
  · rw [hcounted.size_of_fits hfits, hafter.size_of_fits (by omega), hfootprint]

end Session

namespace Call

def takesOff : Call → Bool
  | truncate _ | clear => true
  | _ => false

def isAppend : Call → Bool
  | append _ _ _ => true
  | _ => false

theorem takesOff_of_isAppend {call : Call} (h : call.isAppend = true) : call.takesOff = false := by
  cases call with
  | append purpose r sink? => rfl
  | _ => cases h

theorem take_filterMap_entry? {calls : List Call} (h : ∀ call ∈ calls, call.isAppend = true)
    (k : Nat) : (calls.take k).filterMap entry? = (calls.filterMap entry?).take k := by
  induction calls generalizing k with
  | nil => simp
  | cons call calls ih =>
    obtain ⟨happend, hrest⟩ := List.forall_mem_cons.mp h
    cases k with
    | zero => rfl
    | succ k =>
      cases call with
      | append purpose r sink? => exact congrArg (r.entry :: ·) (ih hrest k)
      | _ => cases happend

theorem filterMap_entry?_singleton (call : Call) :
    [call].filterMap entry? = call.entry?.toList := by
  cases call <;> rfl

theorem filterMap_entry?_filter (calls : List Call) :
    (calls.filter isAppend).filterMap entry? = calls.filterMap entry? := by
  rw [List.filterMap_filter]
  refine List.filterMap_congr fun call _ => ?_
  cases call <;> rfl

end Call

namespace Client

variable {c c' : Client} {call : Call} {calls : List Call} {base : Nat} {entries : List LogEntry}

/-! ## What appends come to -/

/-- A call that takes no records off adds what is appended. Only closing changes whether the segment
is open. -/
theorem spans_of_call (h : c.segment.Spans base entries) (hkeeps : call.takesOff = false)
    (hcall : call.make? c = some c') :
    c'.segment.Spans base (entries ++ call.entry?.toList) ∧ c'.segment.start = c.segment.start ∧
      (call.isAppend = true → c'.segment.isOpen = c.segment.isOpen) := by
  have hread (hreads : call.reads = true) (hentry : call.entry? = none) :
      c'.segment.Spans base (entries ++ call.entry?.toList) ∧ c'.segment.start = c.segment.start ∧
        (call.isAppend = true → c'.segment.isOpen = c.segment.isOpen) := by
    have hbooks := books_of_reads hreads hcall
    obtain ⟨hopen, -, -, hindex⟩ := Segment.Books.mk.inj hbooks
    refine ⟨?_, congrArg SegmentIndex.start hindex, fun _ => hopen⟩
    rw [hentry, Option.toList_none, List.append_nil]
    exact h.of_books hbooks
  cases call with
  | append purpose r sink? =>
    obtain ⟨s, happend, rfl⟩ := make?_append_eq_some.mp hcall
    have hbefore : ({ c.session with sink := (sink?.map c.sinks).getD .absent } :
      Session).segment.Spans base entries := h
    obtain ⟨-, -, -, cache, refs, -, rfl⟩ := Session.taken_of_append hbefore happend
    exact ⟨(Session.append_of_spans hbefore happend).1, rfl, fun _ => rfl⟩
  | close =>
    obtain ⟨s, hs, rfl⟩ := make?_of_no_sink rfl hcall
    obtain ⟨-, rfl⟩ := Session.close_eq_ok.mp (Session.ok_of_returned Session.close_within hs)
    refine ⟨?_, rfl, nofun⟩
    rw [show Call.entry? .close = none from rfl, Option.toList_none, List.append_nil]
    exact h.closed
  | truncate first => cases hkeeps
  | clear => cases hkeeps
  | evict | lookUp | load => exact hread rfl rfl

theorem spans_of_run (h : c.segment.Spans base entries) (hrun : c.Run calls c')
    (hkeeps : ∀ call ∈ calls, call.takesOff = false) :
    c'.segment.Spans base (entries ++ calls.filterMap Call.entry?) ∧
      c'.segment.start = c.segment.start ∧
      ((∀ call ∈ calls, call.isAppend = true) → c'.segment.isOpen = c.segment.isOpen) := by
  induction hrun with
  | nil => exact ⟨by simpa using h, rfl, fun _ => rfl⟩
  | act _ hcall ih =>
    obtain ⟨hbefore, hlast⟩ := List.forall_mem_append.mp hkeeps
    obtain ⟨hspans, hstart, hopen⟩ := ih hbefore
    obtain ⟨hspans', hstart', hopen'⟩ := spans_of_call hspans (hlast _ (by simp)) hcall
    refine ⟨?_, hstart'.trans hstart, fun happends => ?_⟩
    · rw [List.filterMap_append, ← List.append_assoc, Call.filterMap_entry?_singleton]
      exact hspans'
    · obtain ⟨happends, happend⟩ := List.forall_mem_append.mp happends
      exact (hopen' (happend _ (by simp))).trans (hopen happends)
  | env _ hmeanwhile ih =>
    obtain ⟨disk, refs, metrics, rfl⟩ := hmeanwhile
    exact ih hkeeps

def replay (c : Client) (calls : List Call) : Option Client :=
  calls.foldlM (fun c call => call.make? c) c

theorem replay_append (c : Client) (calls more : List Call) :
    c.replay (calls ++ more) = (c.replay calls).bind (·.replay more) :=
  List.foldlM_append

theorem replay_singleton (c : Client) (call : Call) : c.replay [call] = call.make? c := by
  change (call.make? c >>= pure) = _
  simp

theorem exists_make?_close (hopen : c.segment.isOpen = true) :
    ∃ c', Call.close.make? c = some c' ∧ c'.segment = { c.segment with isOpen := false } := by
  have hclose := (Session.close_eq_ok (s := { c.session with sink := .absent })).mpr ⟨hopen, rfl⟩
  exact ⟨_, Option.map_eq_some_iff.mpr ⟨_, Session.returned?_eq_some.mpr (.inl hclose), rfl⟩, rfl⟩

/-- Open segments that start alike and have the same entries take the same one next. -/
theorem exists_make?_of_spans {d : Client} {base' : Nat} (h : c.segment.Spans base entries)
    (h' : d.segment.Spans base' entries) (hstart : d.segment.start = c.segment.start)
    (hopen : d.segment.isOpen = true) (happend : call.isAppend = true)
    (hcall : call.make? c = some c') : ∃ d', call.make? d = some d' := by
  cases call with
  | append purpose r sink? =>
    obtain ⟨s, hs, -⟩ := make?_append_eq_some.mp hcall
    obtain ⟨-, hnext, hadmits, hbound⟩ := (Session.exists_append_iff (s := { c.session with
      sink := (sink?.map c.sinks).getD .absent }) h).mp ⟨s, hs⟩
    have hnext' : r.entry.index.toNat = d.segment.start.toNat + entries.length := by
      rw [hstart]
      exact hnext
    obtain ⟨s', hs'⟩ := (Session.exists_append_iff (s := { d.session with
      sink := (sink?.map d.sinks).getD .absent }) h').mpr ⟨hopen, hnext', hadmits, hbound⟩
    exact ⟨_, make?_append_eq_some.mpr ⟨s', hs', rfl⟩⟩
  | _ => cases happend

/-- What is appended in a run can be appended without the other calls in between. -/
theorem exists_replay (h : c.segment.Spans base entries) (hopen : c.segment.isOpen = true)
    (hrun : c.Run calls c') (hkeeps : ∀ call ∈ calls, call.takesOff = false) :
    ∃ plain, c.replay (calls.filter Call.isAppend) = some plain := by
  induction hrun with
  | nil => exact ⟨c, rfl⟩
  | @act calls call t u hrun hcall ih =>
    obtain ⟨hbefore, hlast⟩ := List.forall_mem_append.mp hkeeps
    obtain ⟨plain, hplain⟩ := ih hbefore
    rw [List.filter_append, replay_append, hplain]
    cases call with
    | append purpose r sink? =>
      obtain ⟨hspans, hstart, -⟩ := spans_of_run h hrun hbefore
      have happends : ∀ call ∈ calls.filter Call.isAppend, call.isAppend = true :=
        fun call hmem => (List.mem_filter.mp hmem).2
      obtain ⟨hspans', hstart', hopen'⟩ := spans_of_run h (.of_foldlM hplain) fun call hmem =>
        hbefore call (List.mem_filter.mp hmem).1
      rw [Call.filterMap_entry?_filter] at hspans'
      obtain ⟨next, hnext⟩ := exists_make?_of_spans hspans hspans' (hstart'.trans hstart.symm)
        ((hopen' happends).trans hopen) rfl hcall
      exact ⟨next, (replay_singleton plain _).trans hnext⟩
    | close | evict | lookUp | load => exact ⟨plain, rfl⟩
    | truncate | clear => cases hlast _ (List.mem_singleton.mpr rfl)
  | env _ hmeanwhile ih => exact ih hkeeps

/-- Truncating a segment that entries were appended to, and that was read, evicted and closed in
between, undoes the appends from an index on: the segment accounts for what a new one accounts for
that is closed after the appends before. Its cache loses the removed entries and nothing else, and
going back further takes the way there is from the start. -/
theorem truncate_undoes_appends {context : SegmentContext} {start first : UInt64}
    (hnew : c.segment = .opening context start) (hrun : c.Run calls c')
    (hkeeps : ∀ call ∈ calls, call.takesOff = false) (hfirst : start ≤ first)
    (hlast : first.toNat < start.toNat + (calls.filterMap Call.entry?).length) :
    ∃ t, Session.truncate first c'.session = .ok () t ∧
      (∃ fresh, c.replay ((calls.filter Call.isAppend).take (first.toNat - start.toNat) ++
          [.close]) = some fresh ∧ t.segment.books = fresh.segment.books) ∧
      c'.session.Loses first t ∧
      ∀ second, start ≤ second → second < first → ∃ u,
        Session.truncate second t = .ok () u ∧ Session.truncate second c'.session = .ok () u := by
  have hspans₀ : c.segment.Spans headerSize [] := hnew ▸ Segment.spans_opening context start
  have hstart₀ : c.segment.start = start := by rw [hnew]; rfl
  obtain ⟨hspans, hstart, -⟩ := spans_of_run hspans₀ hrun hkeeps
  rw [List.nil_append] at hspans
  rw [hstart₀] at hstart
  have hcontains {index : UInt64} (hge : start ≤ index) (hle : index ≤ first) :
      c'.segment.Contains index := by
    refine ⟨hstart ▸ hge, ?_⟩
    rw [UInt64.lt_iff_toNat_lt, hspans.next, hstart]
    exact lt_of_le_of_lt (UInt64.le_iff_toNat_le.mp hle) hlast
  have hcontained := hcontains hfirst (UInt64.le_refl first)
  have hcounted : c'.segment.cache.Counted :=
    cacheHas_of_run Cache.counted_invariant (by rw [hnew]; exact Cache.counted_empty) hrun
  have hspans' : (c'.session.truncated first).segment.Spans headerSize _ :=
    Session.spans_truncated hspans hcontained
  refine ⟨_, Session.truncate_of_contains hspans hcontained, ?_,
    Session.loses_truncated hspans hcontained hcounted, fun second hsecond hlt => ?_⟩
  · obtain ⟨plain, hplain⟩ := exists_replay hspans₀ (by rw [hnew]; rfl) hrun hkeeps
    rw [← List.take_append_drop (first.toNat - start.toNat) (calls.filter Call.isAppend),
      replay_append] at hplain
    obtain ⟨front, hfront, -⟩ := Option.bind_eq_some_iff.mp hplain
    have happends : ∀ call ∈ calls.filter Call.isAppend, call.isAppend = true :=
      fun call hmem => (List.mem_filter.mp hmem).2
    obtain ⟨hspans'', hstart'', hopen⟩ := spans_of_run hspans₀ (.of_foldlM hfront) fun call hmem =>
      hkeeps call (List.mem_filter.mp (List.mem_of_mem_take hmem)).1
    rw [List.nil_append, Call.take_filterMap_entry? happends, Call.filterMap_entry?_filter]
      at hspans''
    have hfrontOpen : front.segment.isOpen = true :=
      (hopen fun call hmem => happends call (List.mem_of_mem_take hmem)).trans (by rw [hnew]; rfl)
    obtain ⟨fresh, hclose, hfresh⟩ := exists_make?_close hfrontOpen
    have hspans₁ : fresh.segment.Spans headerSize
        ((calls.filterMap Call.entry?).take (first.toNat - start.toNat)) := by
      rw [hfresh]
      exact ⟨⟨hspans''.records, hspans''.consecutive, hspans''.fileSize⟩, hspans''.next⟩
    refine ⟨fresh, ?_, ?_⟩
    · rw [replay_append, hfront]
      exact (replay_singleton front _).trans hclose
    · rw [← hstart] at hspans₁
      refine hspans'.books_eq hspans₁ ?_ (by rw [hfresh]; rfl)
      rw [hfresh]
      exact hstart.trans (hstart₀.symm.trans hstart''.symm)
  · have hcontains' : (c'.session.truncated first).segment.Contains second :=
      ⟨hstart ▸ hsecond, hlt⟩
    refine ⟨_, Session.truncate_of_contains hspans' hcontains', ?_⟩
    rw [Session.truncated_truncated hspans hcontained hlt]
    exact Session.truncate_of_contains hspans (hcontains hsecond (UInt64.le_of_lt hlt))

/-- Two entries are appended and the first is evicted; then the second is taken off again. -/
theorem truncate_undoes_second_append : ∃ c' t fresh,
    sample.Run [.append .wholeAppend ⟨0, .sample 5⟩ none, .evict,
      .append .wholeAppend ⟨1, .sample 6⟩ none, .close] c' ∧
    Session.truncate 6 c'.session = .ok () t ∧
    sample.replay [.append .wholeAppend ⟨0, .sample 5⟩ none, .close] = some fresh ∧
    t.segment.books = fresh.segment.books ∧
    c'.session.keysFrom 6 = [⟨1, 6⟩] := by
  obtain ⟨c', hrun, hkeys⟩ : ∃ c', sample.Run [.append .wholeAppend ⟨0, .sample 5⟩ none, .evict,
      .append .wholeAppend ⟨1, .sample 6⟩ none, .close] c' ∧ c'.session.keysFrom 6 = [⟨1, 6⟩] :=
    ⟨_, .act (.act (.act (.act .nil rfl) rfl) rfl) rfl, rfl⟩
  obtain ⟨t, htruncate, ⟨fresh, hfresh, hbooks⟩, -, -⟩ :=
    truncate_undoes_appends rfl hrun (by decide) (by decide : (5 : UInt64) ≤ 6) (by decide)
  exact ⟨c', t, fresh, hrun, htruncate, hfresh, hbooks, hkeys⟩

end Client

end SegmentedLog
