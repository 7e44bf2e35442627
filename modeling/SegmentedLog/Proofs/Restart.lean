import SegmentedLog.Proofs.Journal
import SegmentedLog.Proofs.Listing

/-! # What comes back after a restart

A restart reconstructs a segment from every segment file of a directory. Of a truncation nothing
remains on the disk but the range in the name of the file, so what comes back is told by this name:
a range that ends before it starts has no name that could be read, and every other range admits
exactly the entries that are left. Only the range of a segment that starts at zero and was truncated
to nothing is not told from that of one with a single entry.
-/

namespace SegmentedLog

open Stepwise

namespace Segment

variable {seg : Segment} {entries : List LogEntry}

/-- The name of a segment's file stands for its range, unless this ends before it starts. -/
theorem parse?_name_range (seg : Segment) : SegmentRange.parse? seg.range.name =
    if seg.isOpen = true ∨ seg.start ≤ seg.range.last then some seg.range else none := by
  rw [SegmentRange.parse?_name, isOpen_range, start_range]
  cases hopen : seg.isOpen with
  | true =>
    rw [if_pos rfl, if_pos (.inl rfl), range_of_open hopen]
  | false =>
    have hrange : SegmentRange.closed seg.start seg.range.last = seg.range := by
      rw [range, if_neg (by simp [hopen])]
      rfl
    simp [hrange]

/-- The range of a closed segment without records ends before it starts, except at zero. -/
theorem Spans.last_range_of_nil (h : seg.Spans headerSize []) (hclosed : seg.isOpen = false) :
    seg.range.last = if seg.start = 0 then 0 else seg.start - 1 := by
  have hnext : seg.next = seg.start := UInt64.toNat_inj.mp h.next
  rw [range, if_neg (by simp [hclosed]), hnext]
  rfl

theorem Spans.le_last_range_iff (h : seg.Spans headerSize []) (hclosed : seg.isOpen = false) :
    seg.start ≤ seg.range.last ↔ seg.start = 0 := by
  rw [h.last_range_of_nil hclosed]
  by_cases hzero : seg.start = 0
  · simp [hzero]
  · have hpos : 0 < seg.start.toNat :=
      Nat.pos_of_ne_zero fun heq => hzero (UInt64.toNat_inj.mp heq)
    simp only [hzero, if_false, iff_false]
    rw [UInt64.not_le, UInt64.lt_iff_toNat_lt, toNat_sub_one hpos]
    omega

theorem Spans.proper_of_nil (h : seg.Spans headerSize [])
    (hname : seg.isOpen = true ∨ seg.start ≤ seg.range.last) : seg.range.Proper := by
  intro hclosed
  rw [isOpen_range] at hclosed
  have horder : seg.start ≤ seg.range.last := hname.resolve_left (by simp [hclosed])
  have hlast := h.last_range_of_nil hclosed
  rw [if_pos ((h.le_last_range_iff hclosed).mp horder)] at hlast
  rw [start_range]
  refine ⟨horder, ?_⟩
  rw [hlast]
  decide

end Segment

/-- Whether two segments have the same entries, as far as records tell of what is in a file, and are
open or closed at the same index. -/
structure Segment.Resembles (seg seg' : Segment) : Prop where
  records : seg'.records.map (fun r => (r.key, r.header.kind)) =
    seg.records.map fun r => (r.key, r.header.kind)
  next : seg'.next = seg.next
  isOpen : seg'.isOpen = seg.isOpen

namespace Directory

def under (d : Directory) (policy : CorruptionPolicy) : Directory :=
  { config := { d.config with policy } }

def loadAll (context : SegmentContext) (keep : Bool) :
    List (SegmentRange × String) → Host.Step (List Segment)
  | [] => pure []
  | (range, path) :: found => do
    let seg? ← Host.loadSegment context path range keep
    let segs ← loadAll context keep found
    pure (seg?.toList ++ segs)

def restart (d : Directory) (keep : Bool) : Host.Step (List Segment) := do
  match d.segments (← get).disk with
  | .error cause => throw (.error cause)
  | .ok found => loadAll d.context keep found

/-- Whether a restart brings back a segment as it was, and none if it has no records. -/
def Recovers (d : Directory) (keep : Bool) (host : Host) (seg : Segment) : Prop :=
  ∃ segs after, d.restart keep host = .ok segs after ∧
    if seg.records = [] then segs = [] else ∃ seg', segs = [seg'] ∧ seg.Resembles seg'

variable {d : Directory} {keep : Bool} {host after : Host} {range : SegmentRange} {path : String}
  {seg? : Option Segment}

theorem restart_of_none (h : d.segments host.disk = .ok []) :
    d.restart keep host = .ok [] host := by
  rw [restart, get_bind, h]
  rfl

theorem restart_of_one (h : d.segments host.disk = .ok [(range, path)])
    (hload : Host.loadSegment d.context path range keep host = .ok seg? after) :
    d.restart keep host = .ok seg?.toList after := by
  rw [restart, get_bind, h]
  dsimp only
  rw [loadAll, bind_of_ok hload, loadAll]
  change EStateM.Result.ok (seg?.toList ++ []) after = _
  rw [List.append_nil]

end Directory

namespace Journal

variable {j j' : Journal} {d : Directory} {start : UInt64} {calls : List Call} {trail : Trail}
  {entries written : List LogEntry} {keep : Bool} {policy : CorruptionPolicy} {later : Host}

/-! ## The listing -/

theorem Stores.find (h : j.Stores d.context start entries written) : ∃ id,
    j.disk.find (Path.join d.config.dataDir j.segment.range.name) = .ok (.file id) := by
  obtain ⟨id, hfile, -⟩ := h.file
  rw [Segment.file, h.belongs] at hfile
  exact ⟨id, hfile.find⟩

/-- As long as the file is alone in its directory, it is so under its new name. -/
theorem Stores.lone_of_moves (h : j.Stores d.context start entries written) (hmoves : j.Moves j')
    (hbelongs : j'.segment.context = d.context)
    (hlone : d.Lone j.disk trail j.segment.range.name) :
    d.Lone j'.disk trail j'.segment.range.name := by
  rcases hmoves with ⟨hrange, hdirectories⟩ | hrename
  · rw [hrange]
    exact hlone.of_directories hdirectories
  · obtain ⟨id, hfind⟩ := h.find
    rw [Segment.file, Segment.file, h.belongs, hbelongs] at hrename
    exact hlone.rename h.disk (SegmentRange.plain_name _) (SegmentRange.plain_name _) hfind hrename

/-- What is listed is the segment's file, if its name can be read. -/
theorem Stores.segments (h : j.Stores d.context start entries written)
    (hlone : d.Lone j.disk trail j.segment.range.name) : d.segments j.disk = .ok
      (if j.segment.isOpen = true ∨ j.segment.start ≤ j.segment.range.last then
        [(j.segment.range, j.segment.file)] else []) := by
  obtain ⟨id, hfind⟩ := h.find
  rw [hlone.segments hfind, Segment.parse?_name_range, Segment.file, h.belongs]
  split <;> rfl

/-! ## What is reconstructed -/

section Reconstruction

variable {kept : List LogEntry} (h : j.Stores d.context start kept written)
  (hlone : d.Lone j.disk trail j.segment.range.name)
  (hlimit : ∀ e ∈ written, e.stripped.encodedSize ≤ d.context.maxEntrySize)
  (hfits : (fileImage written).length < Disk.lengthLimit) (hlater : later.disk = j.disk)
  (policy : CorruptionPolicy) (keep : Bool)

include h hlone hlater

theorem segments_of_named
    (hname : j.segment.isOpen = true ∨ j.segment.start ≤ j.segment.range.last) :
    (d.under policy).segments later.disk = .ok [(j.segment.range, j.segment.file)] := by
  rw [hlater]
  exact (h.segments hlone).trans (by rw [if_pos hname])

/-- Nothing comes back from a file whose name cannot be read or that never had an entry. -/
theorem recovers_of_nothing (hkept : kept = [])
    (hwritten : j.segment.isOpen = true ∨ j.segment.start ≤ j.segment.range.last → written = []) :
    (d.under policy).Recovers keep later j.segment := by
  subst hkept
  have hrecords : j.segment.records = [] := h.spans.records
  suffices hrestart : ∃ after, (d.under policy).restart keep later = .ok [] after by
    obtain ⟨after, hrestart⟩ := hrestart
    refine ⟨[], after, hrestart, ?_⟩
    rw [if_pos hrecords]
  by_cases hname : j.segment.isOpen = true ∨ j.segment.start ≤ j.segment.range.last
  · have hnil := hwritten hname
    subst hnil
    obtain ⟨id, hfile, hcontent, -⟩ := h.file
    rw [← hlater] at hfile hcontent
    rw [← List.append_nil (fileImage [])] at hcontent
    have hproper := h.spans.proper_of_nil hname
    have htakes : ∀ e ∈ ([] : List LogEntry),
        Reader.Takes (d.under policy).context.maxEntrySize e := by simp
    have hscan := Disk.scan_image (z := 0) hfile hcontent hproper htakes Consecutive.nil
    rw [List.take_nil] at hscan
    obtain ⟨after, hload, -⟩ := Host.loadSegment_of_nothing later keep hproper hscan
      Consecutive.nil (by simp) rfl rfl hfile
    exact ⟨after, Directory.restart_of_one (segments_of_named h hlone hlater policy hname) hload⟩
  · refine ⟨later, Directory.restart_of_none ?_⟩
    rw [hlater]
    exact (h.segments hlone).trans (by rw [if_neg hname])

include hlimit hfits

/-- A file with entries under a name that can be read gives one segment, of the entries that the
range in the name admits. -/
theorem restart_of_written (hproper : j.segment.range.Proper) (hne : written ≠ []) :
    ∃ seg after, (d.under policy).restart keep later = .ok [seg] after ∧
      written.take (j.segment.range.admitted written.length) ≠ [] ∧
      seg.Holds
        ((written.take (j.segment.range.admitted written.length)).map (·.stripped)) ∧
      seg.start = j.segment.start ∧ seg.isOpen = j.segment.isOpen := by
  obtain ⟨id, hfile, hcontent, -⟩ := h.file
  have hname : j.segment.isOpen = true ∨ j.segment.start ≤ j.segment.range.last := by
    cases hopen : j.segment.isOpen with
    | true => exact .inl rfl
    | false =>
      have horder := (hproper (by rw [Segment.isOpen_range, hopen])).1
      rw [Segment.start_range] at horder
      exact .inr horder
  have hsegments := segments_of_named h hlone hlater policy hname
  have hindices : Consecutive j.segment.range.start.toNat (written.map (·.index)) := by
    rw [Segment.start_range, h.starts]
    exact h.indices
  have hlimit' : ∀ e ∈ written, e.stripped.encodedSize ≤ (d.under policy).context.maxEntrySize :=
    hlimit
  rw [← hlater] at hfile hcontent
  obtain ⟨htaken, seg, after, hload, hrestores⟩ := Host.loadSegment_of_content (z := 0)
    j.segment.range later keep hfile (by simp [hcontent]) hne hproper hindices h.bound hlimit' hfits
  exact ⟨seg, after, Directory.restart_of_one hsegments hload, htaken, hrestores.holds,
    hrestores.start.trans (Segment.start_range _), hrestores.isOpen.trans (Segment.isOpen_range _)⟩

/-- The entries that are left come back, and no others. -/
theorem recovers_of_records (hkept : kept ≠ []) :
    (d.under policy).Recovers keep later j.segment := by
  have hholds := h.spans.holds
  obtain ⟨id, -, -, hopen⟩ := h.file
  have hwritten : written ≠ [] := fun hnil => hkept (List.prefix_nil.mp (hnil ▸ h.initial))
  obtain ⟨seg, after, hrestart, htaken, hseg, hstart, hsegOpen⟩ :=
    restart_of_written h hlone hlimit hfits hlater policy keep (hholds.proper_range hkept) hwritten
  rw [hholds.admitted_range hkept h.initial.length_le fun hisOpen => by rw [(hopen hisOpen).1],
    ← List.prefix_iff_eq_take.mp h.initial] at hseg
  have hrecords : j.segment.records ≠ [] := by
    rw [← List.length_pos_iff, h.spans.length_records, List.length_pos_iff]
    exact hkept
  refine ⟨[seg], after, hrestart, ?_⟩
  rw [if_neg hrecords]
  refine ⟨seg, rfl, ?_, ?_, hsegOpen⟩
  · have htold (offset : Nat) (entries : List LogEntry) :
        (LogRecord.layout offset entries).map (fun r => (r.key, r.header.kind)) =
          entries.map fun e => (e.key, e.kind) :=
      LogRecord.map_header_layout (fun header => (header.key, header.kind)) offset entries
    rw [hseg.records, h.spans.records, htold, htold, List.map_map]
    rfl
  · apply UInt64.toNat_inj.mp
    rw [hseg.next (by simpa using hkept), h.spans.next, hstart, List.length_map]

/-- Without an index below its start, a segment that was truncated to nothing is named like one with
one entry, and is reconstructed as this. -/
theorem restart_of_zero (hstart : start = 0) (hclosed : j.segment.isOpen = false)
    (hkept : kept = []) {e : LogEntry} {rest : List LogEntry} (hwritten : written = e :: rest) :
    ∃ seg after, (d.under policy).restart keep later = .ok [seg] after ∧
      seg.records.map (·.key) = [e.key] := by
  subst hkept hwritten
  have hzero := h.starts.trans hstart
  have hname := (h.spans.le_last_range_iff hclosed).mpr hzero
  obtain ⟨seg, after, hrestart, -, hholds, -⟩ := restart_of_written h hlone hlimit hfits
    hlater policy keep (h.spans.proper_of_nil (.inr hname)) (List.cons_ne_nil e rest)
  have hlast := h.spans.last_range_of_nil hclosed
  rw [if_pos hzero] at hlast
  have hadmitted : j.segment.range.admitted (e :: rest).length = 1 := by
    rw [SegmentRange.admitted, Segment.isOpen_range, hclosed, Segment.start_range, hzero, hlast]
    simp
  rw [hadmitted] at hholds
  exact ⟨seg, after, hrestart, by rw [hholds.records, LogRecord.map_key_layout]; rfl⟩

theorem recovers_iff : (d.under policy).Recovers keep later j.segment ↔
    ¬ (start = 0 ∧ j.segment.isOpen = false ∧ j.segment.records = [] ∧ written ≠ []) := by
  have hrecords : j.segment.records = [] ↔ kept = [] := by
    rw [← List.length_eq_zero_iff, h.spans.length_records, List.length_eq_zero_iff]
  rw [hrecords]
  by_cases hkept : kept = []
  · constructor
    · rintro ⟨segs, after, hrestart, hsegs⟩ ⟨hstart, hclosed, -, hwritten⟩
      obtain ⟨e, rest, hcons⟩ := List.exists_cons_of_ne_nil hwritten
      obtain ⟨seg, after', hrestart', -⟩ := restart_of_zero h hlone hlimit hfits hlater policy keep
        hstart hclosed hkept hcons
      rw [if_pos (hrecords.mpr hkept)] at hsegs
      rw [hsegs, hrestart'] at hrestart
      cases hrestart
    · intro hnot
      refine recovers_of_nothing h hlone hlater policy keep hkept fun hname => ?_
      by_contra hwritten
      obtain ⟨id, -, -, hopen⟩ := h.file
      cases hisOpen : j.segment.isOpen with
      | true => exact hwritten ((hopen hisOpen).1 ▸ hkept)
      | false =>
        subst hkept
        have horder := hname.resolve_left (by simp [hisOpen])
        have hzero := (h.spans.le_last_range_iff hisOpen).mp horder
        exact hnot ⟨h.starts.symm.trans hzero, hisOpen, rfl, hwritten⟩
  · exact ⟨fun _ hzero => hkept hzero.2.2.1, fun _ =>
      recovers_of_records h hlone hlimit hfits hlater policy keep hkept⟩

end Reconstruction

/-! ## Runs from a directory without segment files -/

theorem lone_opening {host : Host} {disk : Disk} {sync : SyncPolicy} {w : Writer}
    (hdisk : host.disk.WellFormed) (hempty : d.segments host.disk = .ok [])
    (hopen : Writer.openOn (d.context.file (.opening start)) sync host.disk = .ok w disk)
    (sinks : Nat → Sink) :
    (opening d.context start { host with disk } sinks w).Stores d.context start [] [] ∧
      ∃ trail, d.Lone disk trail (SegmentRange.opening start).name := by
  obtain ⟨id, made, hmade, hdirectories⟩ := Writer.openOn_eq_ok hopen
  have hparse : SegmentRange.parse? (SegmentRange.opening start).name = some (.opening start) :=
    (SegmentRange.parse?_name _).trans (if_pos rfl)
  obtain ⟨hvacant, trail, hlone⟩ := Directory.lone_of_openOrCreate hdisk hempty hparse hmade
  have hblank : host.disk.Blank (d.context.file (.opening start)) := .inr hvacant
  have hstores := stores_opening hdisk hblank hopen sinks
  exact ⟨hstores, trail, hlone.of_directories hdirectories⟩

section Runs

variable {host : Host} {disk : Disk} {sync : SyncPolicy} {w : Writer} {sinks : Nat → Sink}
  (hdisk : host.disk.WellFormed) (hempty : d.segments host.disk = .ok [])
  (hopen : Writer.openOn (d.context.file (.opening start)) sync host.disk = .ok w disk)
  (hclear : Call.clear ∉ calls)
  (hrun : (opening d.context start { host with disk } sinks w).Run calls j)
  (hlimit : ∀ e ∈ calls.filterMap Call.entry?, e.stripped.encodedSize ≤ d.context.maxEntrySize)
  (hfits : (fileImage (calls.filterMap Call.entry?)).length < Disk.lengthLimit)

include hdisk hempty hopen hclear hrun hlimit hfits

theorem exists_stores_of_run : ∃ kept trail,
    j.Stores d.context start kept (calls.filterMap Call.entry?) ∧
      d.Lone j.disk trail j.segment.range.name := by
  obtain ⟨hstores, trail, hlone⟩ := lone_opening hdisk hempty hopen sinks
  obtain ⟨kept, hkept, hlone'⟩ := stores_of_run
    (I := fun j => d.Lone j.disk trail j.segment.range.name) hstores hlone
    (fun _ _ _ _ h hmoves hbelongs => h.lone_of_moves hmoves hbelongs) hclear hrun
    (Host.takes_of_fits hlimit hfits)
  exact ⟨kept, trail, hkept, hlone'⟩

/-- After whatever was appended, closed and truncated, a restart brings the segment back as it was,
and none if it has no records; except that an entry comes back when all entries of a segment that
starts at zero were removed. -/
theorem run_recovers_iff (hlater : later.disk = j.disk) (policy : CorruptionPolicy) (keep : Bool) :
    (d.under policy).Recovers keep later j.segment ↔
      ¬ (start = 0 ∧ j.segment.isOpen = false ∧ j.segment.records = [] ∧
        calls.filterMap Call.entry? ≠ []) := by
  obtain ⟨kept, trail, hkept, hlone⟩ :=
    exists_stores_of_run hdisk hempty hopen hclear hrun hlimit hfits
  exact recovers_iff hkept hlone hlimit hfits hlater policy keep

end Runs

def sampleDirectory : Directory := { config := { dataDir := ".", maxEntrySize := 64 } }

theorem segments_sample : sampleDirectory.segments {} = .ok [] := by
  have hlist : Disk.list {} sampleDirectory.config.dataDir = .ok [] :=
    Disk.list_eq_ok.mpr ⟨rfl, [], rfl, List.mergeSort_nil.symm⟩
  rw [Directory.segments_of_list hlist, List.filterMap_nil, List.mergeSort_nil]

theorem sampleCalls_recovered : ∃ j, (sample 5).Run sampleCalls j ∧ j.segment.records ≠ [] ∧
    (sampleDirectory.under .tolerant).Recovers true { disk := j.disk } j.segment := by
  obtain ⟨j, hrun, hrecords⟩ := exists_sampleRun
  have hclear : Call.clear ∉ sampleCalls := by simp [sampleCalls]
  have hlimit : ∀ e ∈ sampleCalls.filterMap Call.entry?,
      e.stripped.encodedSize ≤ sampleDirectory.context.maxEntrySize := by decide
  have hfits : (fileImage (sampleCalls.filterMap Call.entry?)).length < Disk.lengthLimit := by
    rw [length_fileImage]
    decide
  have hdisk : ({ refs := ⟨#[1, 1]⟩ } : Host).disk.WellFormed := Disk.wellFormed_empty
  have hlater : ({ disk := j.disk } : Host).disk = j.disk := rfl
  have hrecovers := (run_recovers_iff hdisk segments_sample openOn_sample hclear hrun hlimit hfits
    hlater .tolerant true).mpr (by simp)
  exact ⟨j, hrun, by simp [hrecords], hrecovers⟩

def zeroCalls : List Call :=
  [.append .wholeAppend ⟨0, (LogEntry.sample 0).stripped⟩ none, .truncate 0]

theorem truncated_entry_comes_back :
    sampleDirectory.segments {} = .ok [] ∧
    Writer.openOn (sampleDirectory.context.file (.opening 0)) .everyWrite {} =
      .ok (sample 0).writer (sample 0).disk ∧
    ∃ j seg after, (sample 0).Run zeroCalls j ∧ j.segment.records = [] ∧
      sampleDirectory.restart false { disk := j.disk } = .ok [seg] after ∧
      seg.records.map (·.key) = [⟨1, 0⟩] := by
  have hopen : Writer.openOn (sampleDirectory.context.file (.opening 0)) .everyWrite {} =
      .ok (sample 0).writer (sample 0).disk := rfl
  refine ⟨segments_sample, hopen, ?_⟩
  have hcalls : (zeroCalls.foldlM (fun j (call : Call) => call.record? j) (sample 0)).map
      (fun j => (j.segment.records, j.segment.isOpen)) = some ([], false) := by decide +kernel
  obtain ⟨j, hj, hleft⟩ := Option.map_eq_some_iff.mp hcalls
  obtain ⟨hrecords, hclosed⟩ := Prod.mk.inj hleft
  have hrun : (sample 0).Run zeroCalls j := .of_foldlM hj
  have hclear : Call.clear ∉ zeroCalls := by simp [zeroCalls]
  have hlimit : ∀ e ∈ zeroCalls.filterMap Call.entry?,
      e.stripped.encodedSize ≤ sampleDirectory.context.maxEntrySize := by decide
  have hfits : (fileImage (zeroCalls.filterMap Call.entry?)).length < Disk.lengthLimit := by
    rw [length_fileImage]
    decide
  have hdisk : ({ refs := ⟨#[1, 1]⟩ } : Host).disk.WellFormed := Disk.wellFormed_empty
  have hlater : ({ disk := j.disk } : Host).disk = j.disk := rfl
  obtain ⟨kept, trail, hkept, hlone⟩ :=
    exists_stores_of_run hdisk segments_sample hopen hclear hrun hlimit hfits
  have hnil : kept = [] := by
    rw [← List.length_eq_zero_iff, ← hkept.spans.length_records, hrecords, List.length_nil]
  obtain ⟨seg, after, hrestart, hkeys⟩ := restart_of_zero hkept hlone hlimit hfits hlater
    .strict false rfl hclosed hnil rfl
  exact ⟨j, seg, after, hrun, hrecords, hrestart, hkeys⟩

end Journal

end SegmentedLog
