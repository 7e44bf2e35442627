import SegmentedLog.Proofs.CacheInvariants
import SegmentedLog.Proofs.FileEffects

/-! # Runs of calls on a segment

A segment, however it came to be, is called in any order for as long as the calls return. Between
the calls others may do what they like to the disk and to shared entries. What holds of a segment
after every run is read from its accounts; what the calls do to these is known one by one.
-/

namespace SegmentedLog

open Stepwise

namespace Segment

variable {seg : Segment} {base : Nat} {entries : List LogEntry}

/-- Where segments come from: they are new, or reconstructed from a file, whatever it held. -/
inductive Origin : Segment → Prop
  | opening (context : SegmentContext) (start : UInt64) : Origin (.opening context start)
  | loaded {context : SegmentContext} {path : String} {range : SegmentRange} {keep : Bool}
      {host after : Host} {seg : Segment}
      (hload : Host.loadSegment context path range keep host = .ok (some seg) after) : Origin seg

theorem Origin.spans (h : seg.Origin) : ∃ entries, seg.Spans headerSize entries := by
  cases h with
  | opening context start => exact ⟨[], spans_opening context start⟩
  | loaded hload =>
    obtain ⟨entries, hyielded⟩ := Host.loadSegment_eq_some hload
    exact ⟨entries, hyielded.holds.spans hyielded.nonempty⟩

/-- Whether the accounts of a segment agree with its records, which lie one behind the other. -/
structure Sound (seg : Segment) : Prop where
  indices : Consecutive seg.start.toNat (seg.records.map (·.index))
  next : seg.next.toNat = seg.start.toNat + seg.records.length
  size : seg.size = seg.records.length
  last : seg.last? = seg.lastKey?.map (·.index)
  adjoining : ∀ k r r', seg.records[k]? = some r → seg.records[k + 1]? = some r' →
    r'.offset = r.stop
  fileSize : ∀ r, seg.records.getLast? = some r → seg.fileSize = r.stop

theorem Spans.last? (h : seg.Spans base entries) :
    seg.last? = seg.lastKey?.map (·.index) := by
  have hnext := h.next
  rw [← h.length_records] at hnext
  change seg.last? = (seg.index.last?.map (·.key)).map (·.index)
  cases hlast : seg.index.last? with
  | none =>
    have hnil : seg.records = [] := List.getLast?_eq_none_iff.mp hlast
    have hsame : seg.next.toNat = seg.start.toNat := by rw [hnext, hnil]; rfl
    rw [Segment.last?, if_neg (by rw [UInt64.lt_iff_toNat_lt, hsame]; exact lt_irrefl _)]
    rfl
  | some last =>
    have hindex : last.index.toNat + 1 = seg.next.toNat := by
      rw [h.contiguous.toNat_last? hlast, hnext]
      rfl
    have hstart : seg.start.toNat ≤ last.index.toNat := by
      have hmem : last ∈ seg.records := List.mem_of_getLast? hlast
      exact (h.contiguous.mem_iff.mp (List.mem_map_of_mem hmem)).1
    have hbefore : seg.next - 1 = last.index := by
      apply UInt64.toNat_inj.mp
      rw [toNat_sub_one (by omega), ← hindex]
      rfl
    rw [Segment.last?, if_pos (by rw [UInt64.lt_iff_toNat_lt]; omega), hbefore]
    rfl

theorem Spans.sound (h : seg.Spans base entries) : seg.Sound := by
  have hlength := h.length_records
  refine ⟨h.contiguous, by rw [h.next, hlength], ?_, h.last?, ?_, ?_⟩
  · rw [size, h.next, hlength, Nat.add_sub_cancel_left]
  · intro k r r' hr hr'
    rw [h.records, LogRecord.getElem?_layout] at hr hr'
    obtain ⟨e, he, rfl⟩ := Option.map_eq_some_iff.mp hr
    obtain ⟨e', -, rfl⟩ := Option.map_eq_some_iff.mp hr'
    change base + _ = base + _ + e.footprint
    rw [List.take_add_one, he, List.map_append, List.sum_append, Nat.add_assoc]
    simp
  · intro r hr
    rw [h.records, List.getLast?_eq_getElem?, LogRecord.length_layout,
      LogRecord.getElem?_layout] at hr
    obtain ⟨e, he, rfl⟩ := Option.map_eq_some_iff.mp hr
    change seg.fileSize = base + _ + e.footprint
    obtain ⟨hlt, rfl⟩ := List.getElem?_eq_some_iff.mp he
    have hsplit : entries = entries.take (entries.length - 1) ++ [entries[entries.length - 1]] := by
      rw [← List.take_succ_eq_append_getElem hlt, List.take_of_length_le (by omega)]
    rw [h.fileSize, Nat.add_assoc]
    conv_lhs => rw [hsplit]
    rw [List.map_append, List.sum_append]
    simp

/-- Records that start at the header, or none behind it. -/
theorem Spans.first (h : seg.Spans base entries) :
    (∀ r, seg.records.head? = some r → r.offset = base) ∧
      (seg.records = [] → seg.fileSize = base) := by
  cases entries with
  | nil =>
    have hnil : seg.records = [] := h.records
    refine ⟨fun r hr => ?_, fun _ => h.fileSize⟩
    rw [hnil] at hr
    cases hr
  | cons e entries =>
    have hrecords : seg.records = .of base e :: _ := h.records
    refine ⟨fun r hr => ?_, fun hnil => ?_⟩
    · rw [hrecords] at hr
      cases hr
      rfl
    · rw [hrecords] at hnil
      cases hnil

end Segment

namespace Session

variable {s t : Session} {first : UInt64} {base : Nat} {entries : List LogEntry}

/-- What a truncation leaves: the records before an index, in a closed segment that ends there. -/
structure Cuts (s : Session) (first : UInt64) (t : Session) : Prop where
  records : t.segment.records = s.segment.records.filter (·.index < first)
  next : t.segment.next = first
  isOpen : t.segment.isOpen = false
  fileSize : ∃ r ∈ s.segment.records, r.index = first ∧ t.segment.fileSize = r.offset
  cache : ∀ key, t.segment.cache.find? key =
    if key ∈ (s.segment.records.filter (first ≤ ·.index)).map (·.key) then none
    else s.segment.cache.find? key
  disk : t.disk = s.disk

theorem cuts_truncated (h : s.segment.Spans base entries) (hfirst : s.segment.Contains first) :
    s.Cuts first (s.truncated first) := by
  have hstart := UInt64.le_iff_toNat_le.mp hfirst.1
  have hnext := UInt64.lt_iff_toNat_lt.mp hfirst.2
  have hlength := h.length_records
  have hcount := h.next
  have hk : first.toNat - s.segment.start.toNat < s.segment.records.length := by omega
  refine ⟨(h.contiguous.filter_lt first).symm, rfl, rfl, ⟨_, List.getElem_mem hk, ?_, ?_⟩,
    fun key => ?_, rfl⟩
  · have hindex := h.contiguous.toNat_getElem (by rw [List.length_map]; exact hk)
    rw [List.getElem_map] at hindex
    exact UInt64.toNat_inj.mp (hindex.trans (Nat.add_sub_cancel' hstart))
  · change ((s.segment.records.drop _).head?.map (·.offset)).getD _ = _
    rw [List.head?_drop, List.getElem?_eq_getElem hk]
    rfl
  · have hremoved : s.segment.records.filter (first ≤ ·.index) =
        s.segment.records.drop (first.toNat - s.segment.start.toNat) :=
      h.contiguous.filter_le first
    rw [hremoved]
    exact find?_trimmed _

/-- The session a step leaves that returns, be it with an error; a step that breaks a rule of use
does not return. -/
def returned? (m : Step Unit) (s : Session) : Option Session :=
  match m s with
  | .ok _ t | .error (.error _) t => some t
  | .error (.fault _) _ => none

theorem returned?_eq_some {m : Step Unit} : returned? m s = some t ↔
    m s = .ok () t ∨ ∃ cause, m s = .error (.error cause) t := by
  unfold returned?
  match m s with
  | .ok _ u => simp
  | .error (.error cause) u => simp
  | .error (.fault cause) u => simp

/-- A step that fails with faults only has succeeded if it returns. -/
theorem ok_of_returned {τ : Type} {g : Session → τ} {m : Step Unit}
    (hm : Within g Failure.IsFault m) (h : returned? m s = some t) : m s = .ok () t := by
  rcases returned?_eq_some.mp h with hok | ⟨cause, herror⟩
  · exact hok
  · obtain ⟨fault, hfault⟩ := (hm.of_error herror).2
    cases hfault

theorem holds_of_returned {I : Session → Prop} {m : Step Unit} (hm : Leaves I m s)
    (h : returned? m s = some t) : I t := by
  rcases returned?_eq_some.mp h with hok | ⟨cause, herror⟩
  · exact hm.of_ok hok
  · exact hm.of_error herror

/-- A truncation that returns was one within the segment. -/
theorem truncated_of_returned (h : s.segment.Spans base entries)
    (hs : returned? (truncate first) s = some t) :
    s.segment.Contains first ∧ t = s.truncated first := by
  rcases returned?_eq_some.mp hs with hok | ⟨cause, herror⟩
  · exact (truncate_eq_ok h).mp hok
  · by_cases hfirst : s.segment.Contains first
    · cases herror.symm.trans (truncate_of_contains h hfirst)
    · cases herror.symm.trans (truncate_of_not_contains hfirst)

end Session

/-! ## Calls -/

/-- A segment in use, and the sinks that appends may be passed, by number. -/
structure Client where
  session : Session
  sinks : Nat → Sink

namespace Client

def segment (c : Client) : Segment := c.session.segment

end Client

inductive Call where
  | append (purpose : SizePurpose) (r : EntryRef) (sink? : Option Nat)
  | close
  | truncate (first : UInt64)
  | clear
  | evict
  | lookUp (key : TermIndex)
  | load (key : TermIndex)

namespace Call

def step : Call → Session.Step Unit
  | append purpose r _ => Session.append purpose r
  | close => Session.close
  | truncate first => Session.truncate first
  | clear => Session.clear
  | evict => Session.evict
  | lookUp key => do let _ ← Session.cached? key
  | load key => do let _ ← Session.load key

def sink? : Call → Option Nat
  | append _ _ sink? => sink?
  | _ => none

/-- Whether a call changes nothing that the segment accounts for. -/
def reads : Call → Bool
  | evict | lookUp _ | load _ => true
  | append _ _ _ | close | truncate _ | clear => false

theorem step_within {call : Call} (h : call.reads = true) :
    Within Session.lasting (fun _ => True) call.step := by
  cases call with
  | evict => exact Session.evict_within
  | lookUp key => exact .bind (Session.cached?_within key) fun _ => .pure _
  | load key => exact .bind (Session.load_within key) fun _ => .pure _
  | append | close | truncate | clear => cases h

theorem sink?_of_reads {call : Call} (h : call.reads = true) : call.sink? = none := by
  cases call with
  | append => cases h
  | _ => rfl

def entry? : Call → Option LogEntry
  | append _ r _ => some r.entry
  | _ => none

def handedTo? (k : Nat) (call : Call) : Option LogEntry :=
  if call.sink? = some k then call.entry? else none

def make? (call : Call) (c : Client) : Option Client :=
  let passed := (call.sink?.map c.sinks).getD .absent
  (Session.returned? call.step { c.session with sink := passed }).map fun s =>
    { session := s
      sinks := fun k => if call.sink? = some k then s.sink else c.sinks k }

end Call

/-- Whether nothing changed but the disk, the reference counts and the statistics. -/
def Client.Meanwhile (c c' : Client) : Prop :=
  ∃ disk refs metrics, c' = { c with session := { c.session with disk, refs, metrics } }

abbrev Client.Run (c : Client) (calls : List Call) (c' : Client) : Prop :=
  Stepwise.Run Call.make? Meanwhile c calls c'

namespace Client

variable {c c' c'' : Client} {call : Call} {calls more : List Call} {base : Nat}
  {entries : List LogEntry}

/-- What calls have come to since the accounts of a client's segment started at `base`. -/
structure Kept (base : Nat) (c : Client) (calls : List Call) (c' : Client) : Prop where
  spans : ∃ base' entries, c'.segment.Spans base' entries ∧ (Call.clear ∉ calls → base' = base)
  closed : c.segment.isOpen = false →
    c'.segment.isOpen = false ∧ c'.segment.next ≤ c.segment.next
  sinks : ∀ k, c'.sinks k = (calls.filterMap (Call.handedTo? k)).foldl Sink.accept (c.sinks k)

theorem Kept.nil (h : c.segment.Spans base entries) : Kept base c [] c :=
  ⟨⟨base, entries, h, fun _ => rfl⟩, fun hclosed => ⟨hclosed, UInt64.le_refl _⟩, fun _ => rfl⟩

theorem Kept.trans (h : Kept base c calls c')
    (hmore : ∀ base entries, c'.segment.Spans base entries → Kept base c' more c'') :
    Kept base c (calls ++ more) c'' := by
  obtain ⟨base', entries', hspans, hbase⟩ := h.spans
  obtain ⟨⟨base'', entries'', hspans', hbase'⟩, hclosed, hsinks⟩ := hmore base' entries' hspans
  refine ⟨⟨base'', entries'', hspans', fun hclear => ?_⟩, fun hopen => ?_, fun k => ?_⟩
  · rw [List.mem_append, not_or] at hclear
    exact (hbase' hclear.2).trans (hbase hclear.1)
  · obtain ⟨hopen', hnext⟩ := h.closed hopen
    obtain ⟨hopen'', hnext'⟩ := hclosed hopen'
    exact ⟨hopen'', UInt64.le_trans hnext' hnext⟩
  · rw [hsinks, h.sinks, List.filterMap_append, List.foldl_append]

/-! ### One call -/

/-- A call that is passed no sink changes the session alone. -/
theorem make?_of_no_sink (hsink : call.sink? = none) (hcall : call.make? c = some c') :
    ∃ s, Session.returned? call.step { c.session with sink := .absent } = some s ∧
      c' = ⟨s, c.sinks⟩ := by
  obtain ⟨s, hs, rfl⟩ := Option.map_eq_some_iff.mp hcall
  rw [hsink] at hs
  refine ⟨s, hs, ?_⟩
  simp only [hsink, reduceCtorEq, if_false]

theorem kept_of_segment {s : Session} (hentry : ∀ k, call.handedTo? k = none)
    (hspans : ∃ base' entries', s.segment.Spans base' entries' ∧ (call ≠ .clear → base' = base))
    (hclosed : c.segment.isOpen = false →
      s.segment.isOpen = false ∧ s.segment.next ≤ c.segment.next) :
    Kept base c [call] ⟨s, c.sinks⟩ := by
  obtain ⟨base', entries', hspans, hbase⟩ := hspans
  refine ⟨⟨base', entries', hspans, fun hclear => hbase fun heq => ?_⟩, hclosed, fun k => ?_⟩
  · exact hclear (List.mem_singleton.mpr heq.symm)
  · rw [List.filterMap_cons_none (hentry k)]
    rfl

theorem books_of_reads (hreads : call.reads = true) (hcall : call.make? c = some c') :
    c'.segment.books = c.segment.books := by
  have hstep := Call.step_within hreads
  obtain ⟨s, hs, rfl⟩ := make?_of_no_sink (Call.sink?_of_reads hreads) hcall
  rcases Session.returned?_eq_some.mp hs with hok | ⟨cause, herror⟩
  · exact congrArg Prod.fst (hstep.of_ok (s := { c.session with sink := .absent }) hok)
  · exact congrArg Prod.fst (hstep.of_error (s := { c.session with sink := .absent }) herror).1

/-- Calls that read keep the accounts, also where they fail. -/
theorem kept_of_reads (h : c.segment.Spans base entries) (hreads : call.reads = true)
    (hcall : call.make? c = some c') : Kept base c [call] c' := by
  have hsink := Call.sink?_of_reads hreads
  have hbooks := books_of_reads hreads hcall
  obtain ⟨s, -, rfl⟩ := make?_of_no_sink hsink hcall
  obtain ⟨hopen, hnext, -, -⟩ := Segment.Books.mk.inj hbooks
  refine kept_of_segment (fun k => ?_) ⟨base, entries, h.of_books hbooks, fun _ => rfl⟩ ?_
  · simp [Call.handedTo?, hsink]
  · intro hclosed
    exact ⟨hopen.trans hclosed, hnext ▸ UInt64.le_refl _⟩

theorem make?_append_eq_some {purpose : SizePurpose} {r : EntryRef} {sink? : Option Nat} :
    (Call.append purpose r sink?).make? c = some c' ↔
      ∃ s, Session.append purpose r { c.session with
          sink := (sink?.map c.sinks).getD .absent } = .ok () s ∧
        c' = ⟨s, fun k => if sink? = some k then s.sink else c.sinks k⟩ := by
  constructor
  · intro hcall
    obtain ⟨s, hs, rfl⟩ := Option.map_eq_some_iff.mp hcall
    exact ⟨s, Session.ok_of_returned (Session.append_within purpose r) hs, rfl⟩
  · rintro ⟨s, happend, rfl⟩
    exact Option.map_eq_some_iff.mpr ⟨s, Session.returned?_eq_some.mpr (.inl happend), rfl⟩

theorem kept_of_append {purpose : SizePurpose} {r : EntryRef} {sink? : Option Nat}
    (h : c.segment.Spans base entries)
    (hcall : (Call.append purpose r sink?).make? c = some c') :
    Kept base c [.append purpose r sink?] c' := by
  obtain ⟨s, happend, rfl⟩ := make?_append_eq_some.mp hcall
  have hopen : c.segment.isOpen = true := (Session.append_eq_ok.mp happend).1
  have hbefore : ({ c.session with sink := (sink?.map c.sinks).getD .absent } :
    Session).segment.Spans base entries := h
  obtain ⟨hspans, -, hsink⟩ := Session.append_of_spans hbefore happend
  refine ⟨⟨base, _, hspans, fun _ => rfl⟩, fun hclosed => ?_, fun k => ?_⟩
  · rw [hopen] at hclosed
    cases hclosed
  · by_cases hk : sink? = some k
    · rw [hk] at hsink
      simpa [Call.sink?, Call.handedTo?, Call.entry?, hk] using hsink
    · simp [Call.sink?, Call.handedTo?, hk]

theorem kept_of_truncate {first : UInt64} (h : c.segment.Spans base entries)
    (hcall : (Call.truncate first).make? c = some c') : Kept base c [.truncate first] c' := by
  obtain ⟨s, hs, rfl⟩ := make?_of_no_sink rfl hcall
  have hbefore : ({ c.session with sink := .absent } : Session).segment.Spans base entries := h
  obtain ⟨hfirst, rfl⟩ := Session.truncated_of_returned hbefore hs
  exact kept_of_segment (fun _ => rfl) ⟨base, _, Session.spans_truncated hbefore hfirst,
    fun _ => rfl⟩ fun _ => ⟨rfl, UInt64.le_of_lt hfirst.2⟩

theorem kept_of_call (h : c.segment.Spans base entries) (hcall : call.make? c = some c') :
    Kept base c [call] c' := by
  cases call with
  | append purpose r sink? => exact kept_of_append h hcall
  | close =>
    obtain ⟨s, hs, rfl⟩ := make?_of_no_sink rfl hcall
    obtain ⟨-, rfl⟩ := Session.close_eq_ok.mp (Session.ok_of_returned Session.close_within hs)
    exact kept_of_segment (fun _ => rfl) ⟨base, entries, h.closed, fun _ => rfl⟩
      fun _ => ⟨rfl, UInt64.le_refl _⟩
  | truncate first => exact kept_of_truncate h hcall
  | clear =>
    obtain ⟨s, hs, rfl⟩ := make?_of_no_sink rfl hcall
    cases hs
    refine kept_of_segment (fun _ => rfl) ⟨_, [], Session.spans_cleared _, fun hne => ?_⟩
      fun hclosed => ⟨hclosed, ?_⟩
    · exact absurd rfl hne
    · change c.segment.start ≤ c.segment.next
      rw [UInt64.le_iff_toNat_le, h.next]
      exact Nat.le_add_right _ _
  | evict | lookUp | load => exact kept_of_reads h rfl hcall

/-! ### Caches -/

theorem leaves_step {K : Cache → Prop} (hK : Cache.Invariant fun c _ => K c) (call : Call)
    {s : Session} (h : K s.segment.cache) :
    Leaves (Session.CacheHas fun c _ => K c) call.step s := by
  cases call with
  | append purpose r sink? => exact Session.leaves_append hK trivial h
  | close => exact Session.leaves_close h
  | truncate first => exact Session.leaves_truncate hK first h
  | clear => exact Session.leaves_clear hK h
  | evict => exact Session.leaves_evict hK h
  | lookUp key => exact (Session.leaves_cached? hK.loads key h).bind fun _ _ _ ht => ht
  | load key => exact (Session.leaves_load hK.loads key h).bind fun _ _ _ ht => ht

theorem cacheHas_of_call {K : Cache → Prop} (hK : Cache.Invariant fun c _ => K c)
    (h : K c.segment.cache) (hcall : call.make? c = some c') : K c'.segment.cache := by
  obtain ⟨s, hs, rfl⟩ := Option.map_eq_some_iff.mp hcall
  have hstep := leaves_step hK call
    (s := { c.session with sink := (call.sink?.map c.sinks).getD .absent }) h
  exact Session.holds_of_returned hstep hs

theorem cacheHas_of_run {K : Cache → Prop} (hK : Cache.Invariant fun c _ => K c)
    (h : K c.segment.cache) (hrun : c.Run calls c') : K c'.segment.cache := by
  induction hrun with
  | nil => exact h
  | act _ hcall ih => exact cacheHas_of_call hK ih hcall
  | env _ hmeanwhile ih =>
    obtain ⟨disk, refs, metrics, rfl⟩ := hmeanwhile
    exact ih

/-! ### Runs -/

theorem kept_of_run (h : c.segment.Spans base entries) (hrun : c.Run calls c') :
    Kept base c calls c' := by
  induction hrun with
  | nil => exact .nil h
  | act _ hcall ih => exact ih.trans fun base entries h' => kept_of_call h' hcall
  | env _ hmeanwhile ih =>
    obtain ⟨disk, refs, metrics, rfl⟩ := hmeanwhile
    exact ⟨ih.spans, ih.closed, ih.sinks⟩

/-- Whatever is called on a segment, its accounts agree with its records, which lie one behind the
other from the header on unless the segment was cleared. A closed segment stays closed and does not
grow, and each sink gets the entries appended with it, in order. A segment can be truncated at its
indices and no others. -/
theorem run_keeps_accounts (horigin : c.segment.Origin) (hrun : c.Run calls c')
    (hmore : c'.Run more c'') :
    c'.segment.Sound ∧
    (Call.clear ∉ calls → (∀ r, c'.segment.records.head? = some r → r.offset = headerSize) ∧
      (c'.segment.records = [] → c'.segment.fileSize = headerSize)) ∧
    (c'.segment.isOpen = false →
      c''.segment.isOpen = false ∧ c''.segment.next ≤ c'.segment.next) ∧
    (∀ k received, c.sinks k = .listening received →
      c'.sinks k = .listening (received ++ calls.filterMap (Call.handedTo? k))) ∧
    ∀ first, if c'.segment.Contains first then
        ∃ s, Session.truncate first c'.session = .ok () s ∧ c'.session.Cuts first s
      else Session.truncate first c'.session =
        .error (.fault (.truncateOutside first c'.segment.start c'.segment.next)) c'.session := by
  obtain ⟨entries₀, horigin⟩ := horigin.spans
  have hkept := kept_of_run horigin hrun
  obtain ⟨base, entries, hspans, hbase⟩ := hkept.spans
  refine ⟨hspans.sound, fun hclear => ?_, (kept_of_run hspans hmore).closed, ?_, fun first => ?_⟩
  · rw [← hbase hclear]
    exact hspans.first
  · intro k received hlistening
    rw [hkept.sinks, hlistening, Sink.foldl_accept]
  · split
    · next hfirst =>
      exact ⟨_, Session.truncate_of_contains hspans hfirst, Session.cuts_truncated hspans hfirst⟩
    · next hfirst => exact Session.truncate_of_not_contains hfirst

def sample : Client where
  session := { refs := ⟨#[1, 1]⟩, segment := .opening ⟨"data", .strict, 64⟩ 5 }
  sinks _ := .listening []

def sampleCalls : List Call :=
  [.append .wholeAppend ⟨0, .sample 5⟩ (some 0), .append .wholeAppend ⟨1, .sample 6⟩ none,
    .truncate 6]

theorem sampleCalls_keep_accounts : ∃ c', sample.Run sampleCalls c' ∧ c'.segment.Sound ∧
    (∀ r, c'.segment.records.head? = some r → r.offset = headerSize) ∧
    c'.sinks 0 = .listening [.sample 5] := by
  have horigin : sample.segment.Origin := .opening _ _
  obtain ⟨c', hrun⟩ : ∃ c', sample.Run sampleCalls c' :=
    ⟨_, .act (.act (.act .nil rfl) rfl) rfl⟩
  obtain ⟨hsound, hfirst, -, hsinks, -⟩ := run_keeps_accounts horigin hrun .nil
  exact ⟨c', hrun, hsound, (hfirst (by simp [sampleCalls])).1, hsinks 0 [] rfl⟩

end Client

end SegmentedLog
