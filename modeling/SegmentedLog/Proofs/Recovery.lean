import SegmentedLog.Proofs.Reconstruction
import SegmentedLog.Proofs.Writing

/-! # Segments from files that start with an image

When a file starts with the image of some entries and a scan hands over exactly these, a
reconstruction succeeds if the policy accepts how the scan ended: it cuts the file to the image and
yields the segment of the entries. Without entries it removes the file, and without acceptance it
changes nothing.
-/

namespace SegmentedLog

open Stepwise

/-- Whether a segment mirrors a file that holds exactly the given entries from `first` on: each
record tells where the frame of its entry starts, and has the header of the entry in the file. -/
structure Segment.Mirrors (seg : Segment) (first : UInt64) (entries : List LogEntry) : Prop where
  count : seg.records.length = entries.length
  records : ∀ k, seg.records[k]? =
    entries[k]?.map fun e => LogRecord.of (fileImage (entries.take k)).length e.stripped
  start : seg.start = first
  next : seg.next.toNat = first.toNat + entries.length
  fileSize : seg.fileSize = (fileImage entries).length

/-- Holding the entries of a file without state machine data is mirroring the file. -/
theorem Segment.Holds.mirrors {seg : Segment} {entries : List LogEntry}
    (h : seg.Holds (entries.map (·.stripped))) (hne : entries ≠ []) :
    seg.Mirrors seg.start entries := by
  have hfootprints (es : List LogEntry) :
      (es.map (·.stripped)).map (·.footprint) = es.map (·.stripped.footprint) := by
    rw [List.map_map]
    rfl
  refine ⟨?_, fun k => ?_, rfl, ?_, ?_⟩
  · rw [h.length_records, List.length_map]
  · rw [h.records, LogRecord.getElem?_layout, ← List.map_take, hfootprints, ← length_fileImage,
      List.getElem?_map, Option.map_map]
    rfl
  · rw [h.next (by simpa using hne), List.length_map]
  · rw [h.fileSize, hfootprints, length_fileImage]

namespace Host

variable {host : Host} {context : SegmentContext} {path : String} {range : SegmentRange}
  {keep : Bool} {id : FileId} {entries : List LogEntry} {failure : Option Failure} {n : Nat}
  {rest : Bytes} {seg : Segment} {after : Host}

structure Restores (host : Host) (id : FileId) (range : SegmentRange) (keep : Bool)
    (entries : List LogEntry) (seg : Segment) (after : Host) : Prop where
  holds : seg.Holds (entries.map (·.stripped))
  start : seg.start = range.start
  isOpen : seg.isOpen = range.isOpen
  cache : seg.cache.Shows (if keep || range.isOpen then entries.map (·.stripped) else [])
  sink : after.sink = (entries.map (·.stripped)).foldl Sink.accept host.sink
  disk : after.disk = host.disk.setContent id (fileImage entries)

theorem Restores.mirrors (h : Restores host id range keep entries seg after) (hne : entries ≠ []) :
    seg.Mirrors range.start entries := by
  rw [← h.start]
  exact h.holds.mirrors hne

theorem Restores.read (h : Restores host id range keep entries seg after)
    (hfile : host.disk.HasFile path id) : after.disk.read path = .ok (fileImage entries) := by
  rw [h.disk]
  exact hfile.read

theorem Restores.received (h : Restores host id range keep entries seg after)
    {received : List LogEntry} (hsink : host.sink = .listening received) :
    after.sink = .listening (received ++ entries.map (·.stripped)) := by
  rw [h.sink, hsink, Sink.foldl_accept]

theorem Restores.cached (h : Restores host id range keep entries seg after) (key : TermIndex) :
    (seg.cache.find? key).map (·.ref.entry) =
      if keep || range.isOpen then (entries.map (·.stripped)).find? (·.key = key) else none := by
  rw [h.cache.find?]
  split <;> rfl

/-- Stripped entries with consecutive indices are taken in, so nothing but the policy can object. -/
theorem exists_run_of_scan (host : Host) (keep : Bool) (hproper : range.Proper)
    (hscan : host.disk.scan path range context.maxEntrySize = ⟨entries.map (·.stripped), failure⟩)
    (hindices : Consecutive range.start.toNat (entries.map (·.index)))
    (hbound : ∀ e ∈ entries, e.index.toNat + 1 < UInt64.size) :
    ∃ seg s, Segment.ofRange context range = .ok seg ∧
      ((host.disk.scan path range context.maxEntrySize).entries.forM
        (takeRead (keep || range.isOpen))) { host with segment := seg } = .ok () s ∧
      Loaded { host with segment := seg } (keep || range.isOpen) (entries.map (·.stripped)) s ∧
      seg.start = range.start ∧ seg.isOpen = range.isOpen := by
  obtain ⟨seg, hseg⟩ := Segment.ofRange_of_proper context hproper
  obtain ⟨hnew, hstart, hcache, hopen, -⟩ := Segment.holds_of_ofRange hseg
  have hloaded := loaded_nil { host with segment := seg } (keep || range.isOpen) hnew hcache
  have hstripped : (entries.map (·.stripped)).map (·.index) = entries.map (·.index) := by
    rw [List.map_map]
    rfl
  obtain ⟨s, hrun⟩ := hloaded.exists_run (entries.map (·.stripped))
    (by
      intro e he
      obtain ⟨e', -, rfl⟩ := List.mem_map.mp he
      rfl)
    (by
      rw [hstripped]
      change Consecutive (seg.start.toNat + 0) _
      rw [hstart]
      exact hindices)
    (by
      intro e he
      obtain ⟨e', he', rfl⟩ := List.mem_map.mp he
      exact hbound e' he')
  refine ⟨seg, s, hseg, ?_, hloaded.run hrun, hstart, hopen⟩
  rw [hscan]
  exact hrun

section Outcome

variable (host keep) (hproper : range.Proper)
  (hscan : host.disk.scan path range context.maxEntrySize = ⟨entries.map (·.stripped), failure⟩)
  (hindices : Consecutive range.start.toNat (entries.map (·.index)))
  (hbound : ∀ e ∈ entries, e.index.toNat + 1 < UInt64.size)

include hproper hscan hindices hbound

/-- What was handed over is in a segment, and the file is cut to the size it accounts for. -/
theorem loadSegment_of_scan (hne : entries ≠ [])
    (hsettle : (⟨entries.map (·.stripped), failure⟩ : Scan).settle context.policy = .ok n)
    (hfile : host.disk.HasFile path id)
    (hroom : (fileImage entries).length ≤ (host.disk.content id).length)
    (hfits : (fileImage entries).length < (host.disk.content id).length →
      (fileImage entries).length < Disk.lengthLimit) :
    ∃ seg after, loadSegment context path range keep host = .ok (some seg) after ∧
      seg.Holds (entries.map (·.stripped)) ∧ seg.start = range.start ∧
      seg.isOpen = range.isOpen ∧
      seg.cache.Shows (if keep || range.isOpen then entries.map (·.stripped) else []) ∧
      after.sink = (entries.map (·.stripped)).foldl Sink.accept host.sink ∧
      after.disk = host.disk.setContent id
        ((host.disk.content id).take (fileImage entries).length) := by
  obtain ⟨new, s, hseg, hrun, hloaded, hstart, hopen⟩ :=
    exists_run_of_scan host keep hproper hscan hindices hbound
  have hne' : entries.map (·.stripped) ≠ [] := by simpa using hne
  have hsize : s.segment.fileSize = (fileImage entries).length := by
    rw [hloaded.holds.fileSize, length_fileImage, List.map_map]
    rfl
  have hdisk : s.disk = host.disk := hloaded.disk
  have hcut : cutFile path s.segment.fileSize (counted ⟨entries.map (·.stripped), failure⟩ s).toHost
      = .ok () { (counted ⟨entries.map (·.stripped), failure⟩ s).toHost with
          disk := s.disk.setContent id ((s.disk.content id).take s.segment.fileSize) } := by
    rw [← hdisk] at hfile hroom hfits
    rw [← hsize] at hroom hfits
    exact cutFile_of_file hfile.find hroom hfits
  rw [loadSegment_of_run hseg hrun (by rw [hscan]; exact hsettle), hscan,
    reconcile_of_cut hloaded.holds hne' (hloaded.first.trans hstart) hcut]
  refine ⟨s.segment, _, rfl, hloaded.holds, hloaded.first.trans hstart,
    hloaded.isOpen.trans hopen, hloaded.cache, hloaded.sink, ?_⟩
  change s.disk.setContent id ((s.disk.content id).take s.segment.fileSize) = _
  rw [hdisk, hsize]

theorem loadSegment_of_image (hne : entries ≠ [])
    (hsettle : (⟨entries.map (·.stripped), failure⟩ : Scan).settle context.policy = .ok n)
    (hfile : host.disk.HasFile path id)
    (hcontent : host.disk.content id = fileImage entries ++ rest)
    (hfits : rest ≠ [] → (fileImage entries).length < Disk.lengthLimit) :
    ∃ seg after, loadSegment context path range keep host = .ok (some seg) after ∧
      Restores host id range keep entries seg after := by
  obtain ⟨seg, after, hload, hholds, hstart, hopen, hcache, hsink, hdisk⟩ :=
    loadSegment_of_scan host keep hproper hscan hindices hbound hne hsettle hfile
      (by rw [hcontent, List.length_append]; exact Nat.le_add_right _ _)
      (fun hlonger => hfits fun hnil => by
        rw [hcontent, hnil, List.append_nil] at hlonger
        exact Nat.lt_irrefl _ hlonger)
  rw [hcontent, List.take_left] at hdisk
  exact ⟨seg, after, hload, hholds, hstart, hopen, hcache, hsink, hdisk⟩

theorem loadSegment_of_nothing (hnil : entries = [])
    (hsettle : (⟨entries.map (·.stripped), failure⟩ : Scan).settle context.policy = .ok n)
    (hfile : host.disk.HasFile path id) :
    ∃ after, loadSegment context path range keep host = .ok none after ∧
      after.disk.find path = .error .notFound := by
  obtain ⟨new, s, hseg, hrun, hloaded, -, -⟩ :=
    exists_run_of_scan host keep hproper hscan hindices hbound
  have hdisk : s.disk = host.disk := hloaded.disk
  obtain ⟨after, hremove⟩ : ∃ after, removeIfThere path
      (counted ⟨entries.map (·.stripped), failure⟩ s).toHost = .ok () after := by
    have hfind : s.disk.find path = .ok (.file id) := by
      rw [hdisk]
      exact hfile.find
    exact removeIfThere_of_file hfind
  refine ⟨after, ?_, (removeIfThere_eq_ok hremove).1⟩
  rw [loadSegment_of_run hseg hrun (by rw [hscan]; exact hsettle), hscan, hnil]
  rw [hnil] at hremove
  exact bind_of_ok hremove

theorem loadSegment_of_refusal {cause : Failure}
    (hsettle : (⟨entries.map (·.stripped), failure⟩ : Scan).settle context.policy =
      .error cause) :
    ∃ after, loadSegment context path range keep host = .error cause after ∧
      after.disk = host.disk := by
  obtain ⟨new, s, hseg, hrun, hloaded, -, -⟩ :=
    exists_run_of_scan host keep hproper hscan hindices hbound
  obtain ⟨t, htake, hdisk⟩ := takeScan_of_error hrun (by rw [hscan]; exact hsettle)
  refine ⟨{ t.toHost with refs := t.segment.drop t.refs }, ?_, hdisk.trans hloaded.disk⟩
  rw [loadSegment_of_range hseg]
  exact bind_of_error (withSegment_of_error htake)

end Outcome

end Host

end SegmentedLog
