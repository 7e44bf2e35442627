import SegmentedLog.Proofs.Truncation
import SegmentedLog.Proofs.Warming

/-! # Segments that are cleared and used on

Clearing drops the records and starts the indices over, but goes on in the file where it was. An
open segment that was cleared takes what a new one takes and passes it on in the same way, and its
records lie as far behind those of a new one as the file had got. So the space of the records
accounts for the file exactly as long as no record was dropped by clearing.
-/

namespace SegmentedLog

open Stepwise

namespace LogRecord

def shifted (shift : Nat) (r : LogRecord) : LogRecord := { r with offset := r.offset + shift }

theorem layout_add (offset shift : Nat) (entries : List LogEntry) :
    layout (offset + shift) entries = (layout offset entries).map (shifted shift) := by
  induction entries generalizing offset with
  | nil => rfl
  | cons e entries ih =>
    rw [layout, layout, List.map_cons, ← ih, Nat.add_right_comm offset]
    rfl

end LogRecord

namespace Segment

variable {seg : Segment} {base : Nat} {entries : List LogEntry}

def recordedSize (seg : Segment) : Nat := (seg.records.map fun r => frameSize r.header.size).sum

theorem Spans.recordedSize (h : seg.Spans base entries) :
    seg.fileSize = base + seg.recordedSize := by
  rw [Segment.recordedSize, h.records, LogRecord.map_header_layout (fun header =>
    frameSize header.size), h.fileSize]
  rfl

theorem Spans.base_le (h : seg.Spans base entries) : base ≤ seg.fileSize := by
  rw [h.fileSize]
  exact Nat.le_add_right _ _

theorem recordedSize_pos (hne : seg.records ≠ []) : 0 < seg.recordedSize := by
  obtain ⟨r, records, hrecords⟩ := List.exists_cons_of_ne_nil hne
  rw [Segment.recordedSize, hrecords, List.map_cons, List.sum_cons, frameSize, Varint.size]
  omega

end Segment

/-! ## What clearing drops -/

def Call.Drops (call : Call) (seg : Segment) : Prop :=
  match call with
  | .clear => seg.records ≠ []
  | _ => False

instance (call : Call) (seg : Segment) : Decidable (call.Drops seg) := by
  unfold Call.Drops
  split <;> infer_instance

namespace Client

variable {c c' d fresh : Client} {call : Call} {calls appends : List Call} {base base' : Nat}
  {entries : List LogEntry}

/-- Runs of calls in which no record is dropped by clearing. -/
abbrev Lossless (c : Client) (calls : List Call) (c' : Client) : Prop :=
  Stepwise.Run (fun call c => if call.Drops c.segment then none else call.make? c)
    Meanwhile c calls c'

/-- What is left of a segment that was cleared: an empty one at the offset that was reached, which
is open if it was, and whose cache is closed. -/
structure Cleared (c d : Client) : Prop where
  spans : d.segment.Spans c.segment.fileSize []
  start : d.segment.start = c.segment.start
  isOpen : d.segment.isOpen = c.segment.isOpen
  cache : d.segment.cache.isClosed = true

theorem cleared_of_make? (hclear : Call.clear.make? c = some d) : c.Cleared d := by
  obtain ⟨s, hs, rfl⟩ := make?_of_no_sink rfl hclear
  cases hs
  exact ⟨Session.spans_cleared _, rfl, rfl, Cache.isClosed_close⟩

/-- The accounts start where they did, or where the file had got when records were dropped. -/
theorem spans_after_call (h : c.segment.Spans base entries) (hcall : call.make? c = some c') :
    ∃ entries', c'.segment.Spans (if call.Drops c.segment then c.segment.fileSize else base)
      entries' := by
  by_cases hclear : call = .clear
  · subst hclear
    have hspans := (cleared_of_make? hcall).spans
    refine ⟨[], ?_⟩
    split
    · exact hspans
    · next hkeeps =>
      have hempty : c.segment.records = [] := not_not.mp hkeeps
      rwa [h.first.2 hempty] at hspans
  · obtain ⟨base', entries', hspans, hbase⟩ := (kept_of_call h hcall).spans
    have hkeeps : ¬ call.Drops c.segment := by
      cases call with
      | clear => exact absurd rfl hclear
      | _ => exact id
    rw [if_neg hkeeps, ← hbase fun hmem => hclear (List.mem_singleton.mp hmem).symm]
    exact ⟨entries', hspans⟩

theorem spans_of_lossless (h : c.segment.Spans base entries) (hrun : c.Lossless calls c') :
    ∃ entries', c'.segment.Spans base entries' := by
  induction hrun with
  | nil => exact ⟨entries, h⟩
  | @act _ call u _ _ hcall ih =>
    obtain ⟨entries', hspans⟩ := ih
    by_cases hdrops : call.Drops u.segment
    · rw [if_pos hdrops] at hcall
      cases hcall
    · rw [if_neg hdrops] at hcall
      have hafter := spans_after_call hspans hcall
      rwa [if_neg hdrops] at hafter
  | env _ hmeanwhile ih =>
    obtain ⟨disk, refs, metrics, rfl⟩ := hmeanwhile
    exact ih

/-- Once records were dropped, the accounts start further behind. -/
theorem lossless_or_behind (h : c.segment.Spans base entries) (hrun : c.Run calls c') :
    c.Lossless calls c' ∨ ∃ base' entries', base < base' ∧ c'.segment.Spans base' entries' := by
  induction hrun with
  | nil => exact .inl .nil
  | @act _ call u _ _ hcall ih =>
    rcases ih with hlossless | ⟨base', entries', hlt, hspans⟩
    · by_cases hdrops : call.Drops u.segment
      · obtain ⟨entries', hspans⟩ := spans_of_lossless h hlossless
        obtain ⟨entries'', hafter⟩ := spans_after_call hspans hcall
        rw [if_pos hdrops] at hafter
        have hne : u.segment.records ≠ [] := by
          cases call with
          | clear => exact hdrops
          | _ => exact hdrops.elim
        have hpos := Segment.recordedSize_pos hne
        exact .inr ⟨_, entries'', by rw [hspans.recordedSize]; omega, hafter⟩
      · exact .inl (.act hlossless (by rw [if_neg hdrops]; exact hcall))
    · obtain ⟨entries'', hafter⟩ := spans_after_call hspans hcall
      refine .inr ⟨_, entries'', ?_, hafter⟩
      split
      · exact lt_of_lt_of_le hlt hspans.base_le
      · exact hlt
  | env _ hmeanwhile ih =>
    rcases ih with hlossless | hbehind
    · exact .inl (.env hlossless hmeanwhile)
    · obtain ⟨disk, refs, metrics, rfl⟩ := hmeanwhile
      exact .inr hbehind

/-- The header and the space of the records are all of the file as long as no record is dropped. -/
theorem fileSize_eq_iff_lossless (h : c.segment.Spans base entries) (hrun : c.Run calls c') :
    c'.segment.fileSize = base + c'.segment.recordedSize ↔ c.Lossless calls c' := by
  constructor
  · intro hsize
    rcases lossless_or_behind h hrun with hlossless | ⟨base', entries', hlt, hspans⟩
    · exact hlossless
    · rw [hspans.recordedSize] at hsize
      omega
  · intro hlossless
    obtain ⟨entries', hspans⟩ := spans_of_lossless h hlossless
    exact hspans.recordedSize

theorem base_le_fileSize (h : c.segment.Spans base entries) (hrun : c.Run calls c') :
    base ≤ c'.segment.fileSize := by
  rcases lossless_or_behind h hrun with hlossless | ⟨base', entries', hlt, hspans⟩
  · obtain ⟨entries', hspans⟩ := spans_of_lossless h hlossless
    exact hspans.base_le
  · exact hlt.le.trans hspans.base_le

/-! ## Using on -/

/-- Appends that go through on a segment go through on an open one with the same entries. -/
theorem exists_replay_of_spans {more : List Call} (h : c.segment.Spans base entries)
    (h' : d.segment.Spans base' entries) (hstart : d.segment.start = c.segment.start)
    (hopen : d.segment.isOpen = true) (happends : ∀ call ∈ more, call.isAppend = true)
    (hreplay : c.replay more = some c') : ∃ d', d.replay more = some d' := by
  induction more generalizing c d entries with
  | nil => exact ⟨d, rfl⟩
  | cons call more ih =>
    obtain ⟨happend, hmore⟩ := List.forall_mem_cons.mp happends
    have hkeeps := Call.takesOff_of_isAppend happend
    obtain ⟨t, hcall, hrest⟩ := Option.bind_eq_some_iff.mp hreplay
    obtain ⟨t', hcall'⟩ := exists_make?_of_spans h h' hstart hopen happend hcall
    obtain ⟨hspans, hstart₁, -⟩ := spans_of_call h hkeeps hcall
    obtain ⟨hspans', hstart₂, hopen'⟩ := spans_of_call h' hkeeps hcall'
    obtain ⟨d', hd'⟩ := ih hspans hspans' (hstart₂.trans (hstart.trans hstart₁.symm))
      ((hopen' happend).trans hopen) hmore hrest
    exact ⟨d', Option.bind_eq_some_iff.mpr ⟨t', hcall', hd'⟩⟩

theorem exists_run_of_spans (h : c.segment.Spans base entries)
    (h' : d.segment.Spans base' entries) (hstart : d.segment.start = c.segment.start)
    (hopen : c.segment.isOpen = true) (hopen' : d.segment.isOpen = true)
    (happends : ∀ call ∈ appends, call.isAppend = true) (hrun : c.Run appends c') :
    ∃ d', d.Run appends d' := by
  obtain ⟨plain, hplain⟩ := exists_replay h hopen hrun fun call hmem =>
    Call.takesOff_of_isAppend (happends call hmem)
  rw [List.filter_eq_self.mpr happends] at hplain
  obtain ⟨d', hd'⟩ := exists_replay_of_spans h h' hstart hopen' happends hplain
  exact ⟨d', .of_foldlM hd'⟩

/-- Whether a segment is another one but for its records, which lie further behind in the file, and
for its cache, which holds nothing. -/
structure Displaced (shift : Nat) (c d : Client) : Prop where
  isOpen : d.segment.isOpen = c.segment.isOpen
  start : d.segment.start = c.segment.start
  next : d.segment.next = c.segment.next
  records : d.segment.records = c.segment.records.map (·.shifted shift)
  fileSize : d.segment.fileSize = c.segment.fileSize + shift
  sinks : d.sinks = c.sinks
  uncached : d.segment.cache.slots = []

/-- Entries that were appended to an empty segment lie as far behind those of another one as it had
got in its file. -/
theorem displaced_of_runs {d' f' : Client} {shift : Nat}
    (hd : d.segment.Spans (base + shift) []) (hfresh : fresh.segment.Spans base [])
    (hstart : d.segment.start = fresh.segment.start)
    (hopen : d.segment.isOpen = fresh.segment.isOpen) (hsinks : d.sinks = fresh.sinks)
    (hclosed : d.segment.cache.isClosed = true)
    (happends : ∀ call ∈ appends, call.isAppend = true) (hrun : d.Run appends d')
    (hrun' : fresh.Run appends f') : f'.Displaced shift d' := by
  have hkeeps : ∀ call ∈ appends, call.takesOff = false := fun call hmem =>
    Call.takesOff_of_isAppend (happends call hmem)
  obtain ⟨hspans, hstart₁, hopen₁⟩ := spans_of_run hd hrun hkeeps
  obtain ⟨hspans', hstart₂, hopen₂⟩ := spans_of_run hfresh hrun' hkeeps
  have hstarts : d'.segment.start = f'.segment.start :=
    hstart₁.trans (hstart.trans hstart₂.symm)
  refine ⟨?_, hstarts, UInt64.toNat_inj.mp ?_, ?_, ?_, funext fun k => ?_, ?_⟩
  · rw [hopen₁ happends, hopen₂ happends, hopen]
  · rw [hspans.next, hspans'.next, hstarts]
  · rw [hspans.records, hspans'.records, LogRecord.layout_add]
  · rw [hspans.fileSize, hspans'.fileSize, Nat.add_right_comm]
  · rw [(kept_of_run hd hrun).sinks, (kept_of_run hfresh hrun').sinks, hsinks]
  · exact Cache.slots_of_isClosed (cacheHas_of_run Cache.closed_invariant hclosed hrun)

/-- An open segment that was cleared takes what a new one takes from the same index on, hands it to
the sinks in the same way and caches nothing of it. But its records lie as far behind those of the
new one as it had got in the file, so they are the same exactly if no clearing has dropped a record.
The header and the records take up the whole file exactly after runs without such a clearing. -/
theorem cleared_reused_iff {context : SegmentContext} (horigin : c.segment.Origin)
    (hrun : c.Run calls c') (hopen : c'.segment.isOpen = true)
    (hclear : Call.clear.make? c' = some d)
    (hfresh : fresh.segment = .opening context c'.segment.start) (hsinks : fresh.sinks = d.sinks)
    (happends : ∀ call ∈ appends, call.isAppend = true) :
    ((∃ d', d.Run appends d') ↔ ∃ f', fresh.Run appends f') ∧
    (∀ d' f', d.Run appends d' → fresh.Run appends f' →
      f'.Displaced (c'.segment.fileSize - headerSize) d' ∧
      (f'.Displaced 0 d' ↔ c.Lossless (calls ++ [.clear]) d)) ∧
    ∀ more e, c.Run more e →
      (e.segment.fileSize = headerSize + e.segment.recordedSize ↔ c.Lossless more e) := by
  obtain ⟨entries₀, hspans₀⟩ := horigin.spans
  have hcleared := cleared_of_make? hclear
  have hspans : d.segment.Spans (headerSize + (c'.segment.fileSize - headerSize)) [] := by
    rw [Nat.add_sub_cancel' (base_le_fileSize hspans₀ hrun)]
    exact hcleared.spans
  have hopen' : d.segment.isOpen = true := hcleared.isOpen.trans hopen
  have hspans' : fresh.segment.Spans headerSize [] := hfresh ▸ Segment.spans_opening _ _
  have hopen'' : fresh.segment.isOpen = true := by rw [hfresh]; rfl
  have hstart : d.segment.start = fresh.segment.start := by rw [hcleared.start, hfresh]; rfl
  refine ⟨⟨fun ⟨d', hd'⟩ => ?_, fun ⟨f', hf'⟩ => ?_⟩, fun d' f' hd' hf' => ?_,
    fun more e hmore => fileSize_eq_iff_lossless hspans₀ hmore⟩
  · exact exists_run_of_spans hspans hspans' hstart.symm hopen' hopen'' happends hd'
  · exact exists_run_of_spans hspans' hspans hstart hopen'' hopen' happends hf'
  · have hdisplaced := displaced_of_runs hspans hspans' hstart (hopen'.trans hopen''.symm)
      hsinks.symm hcleared.cache happends hd' hf'
    have hsize := hdisplaced.fileSize
    have hempty : d.segment.recordedSize = 0 := by
      rw [Segment.recordedSize, hspans.records]
      rfl
    refine ⟨hdisplaced, ?_⟩
    rw [← fileSize_eq_iff_lossless hspans₀ (.act hrun hclear), hempty, hspans.fileSize]
    constructor
    · intro hsame
      have hsize' := hsame.fileSize
      rw [List.map_nil, List.sum_nil]
      omega
    · intro hnone
      have hshift : c'.segment.fileSize - headerSize = 0 := by
        rw [List.map_nil, List.sum_nil] at hnone
        omega
      rwa [hshift] at hdisplaced

/-- A segment that an entry of 45 bytes was appended to is cleared, and takes the same entry 45
bytes behind the header. -/
theorem cleared_segment_displaced : ∃ c' d d' f',
    sample.Run [.append .wholeAppend ⟨0, .sample 5⟩ none] c' ∧
    Call.clear.make? c' = some d ∧
    d.Run [.append .wholeAppend ⟨0, .sample 5⟩ none] d' ∧
    sample.Run [.append .wholeAppend ⟨0, .sample 5⟩ none] f' ∧
    f'.Displaced 45 d' ∧
    ¬ sample.Lossless [.append .wholeAppend ⟨0, .sample 5⟩ none, .clear] d := by
  obtain ⟨c', d, hsize, hopen, hstart, hsinks, hrun, hclear⟩ : ∃ c' d,
      c'.segment.fileSize = 53 ∧ c'.segment.isOpen = true ∧ c'.segment.start = 5 ∧
      sample.sinks = d.sinks ∧ sample.Run [.append .wholeAppend ⟨0, .sample 5⟩ none] c' ∧
      Call.clear.make? c' = some d := ⟨_, _, rfl, rfl, rfl, rfl, .act .nil rfl, rfl⟩
  obtain ⟨f', hf'⟩ : ∃ f', sample.Run [.append .wholeAppend ⟨0, .sample 5⟩ none] f' :=
    ⟨_, .act .nil rfl⟩
  have hfresh : sample.segment = .opening ⟨"data", .strict, 64⟩ c'.segment.start := by
    rw [hstart]
    rfl
  have horigin : sample.segment.Origin := .opening _ _
  have happends : ∀ call ∈ [Call.append .wholeAppend ⟨0, .sample 5⟩ none], call.isAppend = true :=
    List.forall_mem_singleton.mpr rfl
  obtain ⟨hreuse, hdisplaced, -⟩ :=
    cleared_reused_iff horigin hrun hopen hclear hfresh hsinks happends
  obtain ⟨d', hd'⟩ := hreuse.mpr ⟨f', hf'⟩
  obtain ⟨hfar, hsame⟩ := hdisplaced d' f' hd' hf'
  rw [hsize] at hfar
  refine ⟨c', d, d', f', hrun, hclear, hd', hf', hfar, fun hlossless => ?_⟩
  have hnear := (hsame.mpr hlossless).fileSize
  rw [hfar.fileSize] at hnear
  exact absurd (Nat.add_left_cancel hnear) (by decide)

/-- The first record after clearing lies where the file had got, not behind the header, and the
records are not all of the file. -/
theorem cleared_goes_on_in_file : ∃ c' d d' f',
    sample.Run [.append .wholeAppend ⟨0, .sample 5⟩ none] c' ∧
    Call.clear.make? c' = some d ∧
    d.Run [.append .wholeAppend ⟨0, .sample 5⟩ none] d' ∧
    sample.Run [.append .wholeAppend ⟨0, .sample 5⟩ none] f' ∧
    d'.segment.records.map (·.offset) = [53] ∧ f'.segment.records.map (·.offset) = [8] ∧
    d'.segment.fileSize = 98 ∧ f'.segment.fileSize = 53 ∧
    d'.segment.recordedSize = 45 :=
  ⟨_, _, _, _, .act .nil rfl, rfl, .act .nil rfl, .act .nil rfl, rfl, rfl, rfl, rfl, rfl⟩

end Client

end SegmentedLog
