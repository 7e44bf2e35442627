import SegmentedLog.Proofs.Acceptance

/-! # Tolerant reconstructions of whatever a file holds

Under the tolerant policy a malformed place ends what is read, and a segment is made of the entries
in front of it. A segment does not take in every entry a scan hands over: one with state machine
data in its frame, or one with the largest index, is a fault, which no policy stands in the way of.
Without such an entry a tolerant reconstruction always succeeds.
-/

namespace SegmentedLog

open Stepwise

/-- Whether a segment can take an entry in from a file: it has no state machine data, and there is
an index behind its own. -/
def LogEntry.Loadable (e : LogEntry) : Prop :=
  e.hasStateData = false ∧ e.index.toNat + 1 < UInt64.size

instance (e : LogEntry) : Decidable e.Loadable := inferInstanceAs (Decidable (_ ∧ _))

/-- A run behind the largest index has an entry that has it. -/
theorem LongestRun.not_overruns {range : SegmentRange} {limit : Nat} {content : Bytes}
    {entries : List LogEntry} (h : LongestRun range limit content entries)
    (hbound : ∀ e ∈ entries, e.index.toNat + 1 < UInt64.size) : ¬ Overruns range limit content := by
  rintro ⟨body, front, last, frame, e, rest, hcontent, hframes, hfull, -⟩
  have hread := h.longest (front ++ [last]) ⟨body, _, hcontent, hframes⟩
  have hlast := hbound last (hread.subset (by simp))
  omega

namespace Host

variable {host : Host} {context : SegmentContext} {path : String} {range : SegmentRange}
  {id : FileId} {keep : Bool}

/-- An entry that cannot be taken in makes a reconstruction a fault under any policy. -/
theorem loadSegment_of_unloadable (keep : Bool) (hproper : range.Proper)
    (h : ¬ ∀ e ∈ (host.disk.scan path range context.maxEntrySize).entries, e.Loadable) :
    ∃ fault after, loadSegment context path range keep host = .error (.fault fault) after := by
  obtain ⟨seg, hseg⟩ := Segment.ofRange_of_proper context hproper
  obtain ⟨hnew, -, hcache, -⟩ := Segment.holds_of_ofRange hseg
  have hloaded := loaded_nil { host with segment := seg } (keep || range.isOpen) hnew hcache
  cases hrun : ((host.disk.scan path range context.maxEntrySize).entries.forM
      (takeRead (keep || range.isOpen))) { host with segment := seg } with
  | ok _ s =>
    have htaken := hloaded.run hrun
    exact absurd (fun e he => ⟨htaken.plain e he, htaken.holds.bound e he⟩) h
  | error cause s =>
    obtain ⟨-, fault, rfl⟩ := (Within.forM (takeRead_within _) _).of_error hrun
    refine ⟨fault, { s.toHost with refs := s.segment.drop s.refs }, ?_⟩
    rw [loadSegment_of_range hseg]
    exact bind_of_error (withSegment_of_error (bind_of_error hrun))

/-- Of any file whatever, a tolerant reconstruction yields a segment of the longest run, or none if
that has no entries, exactly if all of its entries can be taken in; otherwise it is a fault. -/
theorem loadSegment_tolerant_iff (hpolicy : context.policy = .tolerant) (hproper : range.Proper)
    (hlimit : context.maxEntrySize < Reader.capacityLimit) (hfile : host.disk.HasFile path id)
    (hfits : (host.disk.content id).length < Disk.lengthLimit) (keep : Bool) :
    ∃ entries, LongestRun range context.maxEntrySize (host.disk.content id) entries ∧
      if ∀ e ∈ entries, e.Loadable then
        if entries = [] then
          ∃ after, loadSegment context path range keep host = .ok none after
        else
          ∃ seg after, loadSegment context path range keep host = .ok (some seg) after ∧
            seg.Holds entries ∧ seg.start = range.start ∧ seg.isOpen = range.isOpen
      else
        ∃ fault after, loadSegment context path range keep host =
          .error (.fault fault) after := by
  have hsource := Disk.scan_of_find range context.maxEntrySize hfile.find
  have hlongest := Scan.ofSource_longestRun path range (host.disk.content id) hlimit
  have hcases := Scan.ofSource_cases path range (host.disk.content id) hlimit
  dsimp only at hcases
  rw [← hsource] at hlongest hcases
  refine ⟨_, hlongest, ?_⟩
  split
  · next hloadable =>
    have hplain := fun e he => (hloadable e he).1
    have hbound := fun e he => (hloadable e he).2
    have hindices := (scan_sound host.disk path range context.maxEntrySize).1
    have hroom := fileSize_le_of_scan range context.maxEntrySize hfile.find
    have hsettle : (host.disk.scan path range context.maxEntrySize).settle context.policy =
        .ok (host.disk.scan path range context.maxEntrySize).entries.length := by
      rw [hpolicy]
      rcases hcases with ⟨hfailure, -⟩ | ⟨-, ⟨cause, hfailure, -⟩ | ⟨-, hoverruns⟩⟩
      · exact Scan.settle_of_none hfailure .tolerant
      · exact Scan.settle_tolerant hfailure
      · exact absurd hoverruns (hlongest.not_overruns hbound)
    have hscan : host.disk.scan path range context.maxEntrySize =
        ⟨(host.disk.scan path range context.maxEntrySize).entries.map (·.stripped),
          (host.disk.scan path range context.maxEntrySize).failure⟩ := by
      rw [LogEntry.map_stripped hplain]
    generalize (host.disk.scan path range context.maxEntrySize).failure = failure at hscan
    generalize hentries : (host.disk.scan path range context.maxEntrySize).entries = entries at *
    rw [hscan] at hsettle
    split
    · next hnil =>
      obtain ⟨after, hload, -⟩ := loadSegment_of_nothing host keep hproper hscan hindices hbound
        hnil hsettle hfile
      exact ⟨after, hload⟩
    · next hne =>
      rw [← length_fileImage_of_plain hplain] at hroom
      obtain ⟨seg, after, hload, hholds, hstart, hopen, -⟩ := loadSegment_of_scan host keep hproper
        hscan hindices hbound hne hsettle hfile (hroom hne) fun _ => (hroom hne).trans_lt hfits
      rw [LogEntry.map_stripped hplain] at hholds
      exact ⟨seg, after, hload, hholds, hstart, hopen⟩
  · next hunloadable => exact loadSegment_of_unloadable keep hproper hunloadable

def brokenFile : Bytes := fileImage [.sample 5] ++ (Frame.ofEntry (.sample 6)).take 20

theorem loadSegment_of_brokenFile : ∃ seg after,
    loadSegment ⟨"data", .tolerant, 64⟩ "log" (.opening 5) false (singleFile brokenFile) =
      .ok (some seg) after ∧ seg.Holds [(LogEntry.sample 5).stripped] := by
  have h5 : Reader.Takes 64 (.sample 5) := ⟨by decide, by decide⟩
  have h6 : Reader.Takes 64 (.sample 6) := ⟨by decide, by decide⟩
  have hlimit : 64 < Reader.capacityLimit := by decide
  have hfits : brokenFile.length < Disk.lengthLimit := by
    rw [brokenFile, List.length_append, length_fileImage, List.length_take, Frame.length_ofEntry]
    decide
  have htakes : ∀ e ∈ [LogEntry.sample 5], Reader.Takes 64 e := by simpa using h5
  have hlast : ∀ e ∈ [LogEntry.sample 5], ¬ (SegmentRange.opening 5).EndsBefore e.index := by
    decide
  obtain ⟨cause, hscan⟩ := Scan.ofSource_torn htakes (by decide) hlast "log" h6
    (k := 20) (by decide) (by rw [Frame.length_ofEntry]; decide)
  have hread := Scan.ofSource_longestRun "log" (.opening 5) brokenFile hlimit
  have hproper : (SegmentRange.opening 5).Proper := by decide
  have hpolicy : (SegmentContext.mk "data" .tolerant 64).policy = .tolerant := rfl
  obtain ⟨entries, hlongest, hload⟩ := loadSegment_tolerant_iff hpolicy hproper hlimit
    (singleFile_hasFile brokenFile) hfits false
  have hentries : entries = [(LogEntry.sample 5).stripped] := by
    rw [hlongest.unique hread]
    exact congrArg Scan.entries hscan
  rw [hentries, if_pos (by decide), if_neg (by decide)] at hload
  obtain ⟨seg, after, hload, hholds, -⟩ := hload
  exact ⟨seg, after, hload, hholds⟩

def stateDataFile : Bytes := magic ++ Frame.around (LogEntry.sample 5).encode

/-- An entry whose frame has state machine data is read, and is a fault then. -/
theorem stateDataFile_faults : ∃ fault after,
    loadSegment ⟨"data", .tolerant, 64⟩ "log" (.opening 5) false (singleFile stateDataFile) =
      .error (.fault fault) after := by
  have hlength : (LogEntry.sample 5).encode.length = 40 := LogEntry.length_encode _
  have hframed : Framed 64 (.sample 5) (Frame.around (LogEntry.sample 5).encode) :=
    Reader.framed_around (LogEntry.decode_encode (LogEntry.encodable_of_encodedSize (by decide)))
      (LogEntry.encode_ne_nil _) (by rw [hlength]; decide) (by rw [hlength]; decide)
  have hfile : SegmentFile (.opening 5) 64 stateDataFile [.sample 5] := by
    rw [stateDataFile, ← List.append_nil (Frame.around _)]
    exact .written (.cons hframed rfl (by decide) .nil) .nothing
  have hscan : (singleFile stateDataFile).disk.scan "log" (.opening 5) 64 =
      ⟨[.sample 5], none⟩ := by
    rw [Disk.scan_of_find _ _ (singleFile_hasFile stateDataFile).find]
    exact Scan.ofSource_of_segmentFile "log" (by decide) hfile
  refine loadSegment_of_unloadable false (by decide) ?_
  change ¬ ∀ e ∈ ((singleFile stateDataFile).disk.scan "log" (.opening 5) 64).entries, e.Loadable
  rw [hscan]
  decide

end Host

end SegmentedLog
