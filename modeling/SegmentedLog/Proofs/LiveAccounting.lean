import SegmentedLog.Proofs.RoundTrip

/-! # The accounts of a segment and the file beside it

An open segment accounts for every entry it takes in, and a writer beside it writes the entry
without state machine data. The two agree for as long as no entry has any: one that is measured
whole shifts everything behind it.
-/

namespace SegmentedLog

open Stepwise

/-! ## What state machine data adds -/

theorem LogEntry.footprint_stripped_lt {e : LogEntry} (h : e.hasStateData = true) :
    e.stripped.footprint < e.footprint := by
  obtain ⟨data, hdata⟩ := Option.isSome_iff_exists.mp h
  have hlt : e.stripped.encodedSize < e.encodedSize := by
    simp only [encodedSize, stripped, hdata, Option.map_none, Option.map_some, Option.getD_none,
      Option.getD_some]
    omega
  have hsize := Varint.size_mono hlt.le
  simp only [footprint, frameSize]
  omega

theorem LogEntry.footprint_stripped_le (e : LogEntry) : e.stripped.footprint ≤ e.footprint :=
  frameSize_mono (encodedSize_stripped_le e)

/-- Entries take the space of what is written of them if and only if all of it is written. -/
theorem LogEntry.sum_footprint_eq_iff (entries : List LogEntry) :
    (entries.map (·.footprint)).sum = (entries.map (·.stripped.footprint)).sum ↔
      ∀ e ∈ entries, e.hasStateData = false := by
  induction entries with
  | nil => simp
  | cons e entries ih =>
    have hle := footprint_stripped_le e
    have hrest : (entries.map (·.stripped.footprint)).sum ≤ (entries.map (·.footprint)).sum :=
      List.sum_le_sum fun e _ => footprint_stripped_le e
    rw [List.map_cons, List.map_cons, List.sum_cons, List.sum_cons, List.forall_mem_cons, ← ih]
    constructor
    · intro heq
      refine ⟨?_, by omega⟩
      cases hdata : e.hasStateData with
      | false => rfl
      | true =>
        have hlt := footprint_stripped_lt hdata
        omega
    · rintro ⟨hplain, heq⟩
      rw [heq, stripped_of_not_hasStateData hplain]

/-! ## Runs of appends -/

namespace Session

variable {s t : Session} {purpose : SizePurpose} {r : EntryRef} {entries : List LogEntry}

abbrev Addition := SizePurpose × EntryRef

def Addition.entry (a : Addition) : LogEntry := a.2.entry

def appendAll : List Addition → Step Unit
  | [] => pure ()
  | (purpose, r) :: rest => do
    append purpose r
    appendAll rest

/-- What a run of appends has made of a session that held `entries`. -/
structure Appended (s : Session) (entries more : List LogEntry) (t : Session) : Prop where
  holds : t.segment.Holds (entries ++ more)
  start : t.segment.start = s.segment.start
  bound : ∀ e ∈ more, e.index.toNat + 1 < UInt64.size
  disk : t.disk = s.disk

theorem appended_of_append (h : s.segment.Holds entries) (happend : append purpose r s = .ok () t) :
    Appended s entries [r.entry] t := by
  obtain ⟨hnext, -, hbound, cache, refs, -, rfl⟩ :=
    (take_eq_ok h).mp (append_eq_ok.mp happend).2
  refine ⟨holds_taken h hnext hbound, rfl, ?_, rfl⟩
  simpa using hbound

theorem appended_of_appendAll {steps : List Addition} (h : s.segment.Holds entries)
    (hrun : appendAll steps s = .ok () t) : Appended s entries (steps.map (·.entry)) t := by
  induction steps generalizing entries s with
  | nil =>
    obtain ⟨-, rfl⟩ := pure_eq_ok.mp hrun
    exact ⟨by rw [List.map_nil, List.append_nil]; exact h, rfl, by simp, rfl⟩
  | cons step steps ih =>
    obtain ⟨_, u, hfirst, hrest⟩ := bind_eq_ok.mp hrun
    have hu := appended_of_append h hfirst
    have ht := ih hu.holds hrest
    refine ⟨?_, ht.start.trans hu.start, ?_, ht.disk.trans hu.disk⟩
    · have hholds := ht.holds
      rw [List.append_assoc] at hholds
      exact hholds
    · rw [List.map_cons, List.forall_mem_cons]
      exact ⟨hu.bound _ (by simp [Addition.entry]), ht.bound⟩

/-- Whether the accounts agree with a writer after every part of a run: the segment takes the space
up to the writer's position, and each record starts at the position before its entry was written. -/
def StaysInStep (steps : List Addition) (s : Session) (x : Writer × Disk) : Prop :=
  ∀ i ≤ steps.length, ∀ t, appendAll (steps.take i) s = .ok () t →
    t.segment.fileSize = (Writer.writeAll ((steps.take i).map (·.entry)) x).2.1.position ∧
    ∀ j r, t.segment.records[j]? = some r →
      r.offset = (Writer.writeAll ((steps.take j).map (·.entry)) x).2.1.position

end Session

theorem Writer.position_writeAll (entries : List LogEntry) (x : Writer × Disk) :
    (writeAll entries x).2.1.position =
      x.1.position + (entries.map (·.stripped.footprint)).sum := by
  induction entries generalizing x with
  | nil => rfl
  | cons e entries ih =>
    change (writeAll entries (write e x).2).2.1.position = _
    rw [ih, position_write, List.map_cons, List.sum_cons, Nat.add_assoc]

theorem Session.staysInStep_iff {steps : List Addition} {s t : Session} {x : Writer × Disk}
    (hholds : s.segment.Holds []) (hposition : x.1.position = headerSize)
    (hrun : appendAll steps s = .ok () t) :
    StaysInStep steps s x ↔ ∀ a ∈ steps, a.entry.hasStateData = false := by
  have hplain : (∀ e ∈ steps.map (·.entry), e.hasStateData = false) ↔
      ∀ a ∈ steps, a.entry.hasStateData = false := List.forall_mem_map
  constructor
  · intro hstays
    have hend := (hstays steps.length le_rfl t (by rw [List.take_length]; exact hrun)).1
    rw [List.take_length, (appended_of_appendAll hholds hrun).holds.fileSize,
      Writer.position_writeAll, hposition, List.nil_append] at hend
    rw [← hplain, ← LogEntry.sum_footprint_eq_iff]
    exact Nat.add_left_cancel hend
  · intro hall i hi u hu
    have hbefore (j : Nat) : headerSize + (((steps.take j).map (·.entry)).map (·.footprint)).sum =
        (Writer.writeAll ((steps.take j).map (·.entry)) x).2.1.position := by
      rw [Writer.position_writeAll, hposition, (LogEntry.sum_footprint_eq_iff _).mpr]
      rw [List.forall_mem_map]
      exact fun a ha => hall a (List.mem_of_mem_take ha)
    have hu' := (appended_of_appendAll hholds hu).holds
    rw [List.nil_append] at hu'
    refine ⟨by rw [hu'.fileSize, hbefore], fun j r hr => ?_⟩
    rw [hu'.records, LogRecord.getElem?_layout] at hr
    obtain ⟨e, he, rfl⟩ := Option.map_eq_some_iff.mp hr
    obtain ⟨hj, -⟩ := List.getElem?_eq_some_iff.mp he
    rw [List.length_map, List.length_take] at hj
    have htake : ((steps.take i).map (·.entry)).take j = (steps.take j).map (·.entry) := by
      rw [← List.map_take, List.take_take, Nat.min_eq_left (by omega)]
    rw [htake, ← hbefore]
    rfl

/-- Segments that hold entries as they are and as they are written agree exactly if these are the
same. -/
theorem Segment.Holds.agrees_iff {seg stripped : Segment} {entries : List LogEntry}
    (h : seg.Holds entries) (hstripped : stripped.Holds (entries.map (·.stripped))) :
    stripped.records = seg.records ∧ stripped.fileSize = seg.fileSize ↔
      ∀ e ∈ entries, e.hasStateData = false := by
  constructor
  · rintro ⟨-, hsize⟩
    rw [h.fileSize, hstripped.fileSize, List.map_map] at hsize
    exact (LogEntry.sum_footprint_eq_iff entries).mp (Nat.add_left_cancel hsize).symm
  · intro hplain
    rw [LogEntry.map_stripped hplain] at hstripped
    exact ⟨hstripped.records.trans h.records.symm, hstripped.fileSize.trans h.fileSize.symm⟩

namespace Host

variable {host : Host} {path : String} {start : UInt64} {steps : List Session.Addition}
  {s : Session} {live reading : SegmentContext}

/-- A segment that entries are appended to and a writer beside it agree after every step, and what
is read back from the file agrees with the segment, exactly if no entry has state machine data. -/
theorem appends_match_file_iff (hdisk : host.disk.WellFormed) (hblank : host.disk.Blank path)
    (hne : steps ≠ [])
    (hrun : Session.appendAll steps { host with segment := .opening live start } = .ok () s)
    (hlimit : ∀ a ∈ steps, a.entry.stripped.encodedSize ≤ reading.maxEntrySize)
    (hfits : (fileImage (steps.map (·.entry))).length < Disk.lengthLimit) (sync : SyncPolicy) :
    ∃ w disk, Writer.openOn path sync host.disk = .ok w disk ∧
      (Session.StaysInStep steps { host with segment := .opening live start } (w, disk) ↔
        ∀ a ∈ steps, a.entry.hasStateData = false) ∧
      ∀ range : SegmentRange, range.start = start → range.Proper →
        (∀ a ∈ steps, ¬ range.EndsBefore a.entry.index) → ∀ keep, ∃ seg after,
          loadSegment reading path range keep { s.toHost with
            disk := (Writer.force (Writer.writeAll (steps.map (·.entry)) (w, disk)).2).2.2 } =
              .ok (some seg) after ∧
          (seg.records = s.segment.records ∧ seg.fileSize = s.segment.fileSize ↔
            ∀ a ∈ steps, a.entry.hasStateData = false) := by
  obtain ⟨id, blank, w, hopen, hfile, hposition, hcarries⟩ :=
    Writer.openOn_of_blank hdisk hblank sync
  have hrange : Segment.ofRange live (.opening start) = .ok (.opening live start) := rfl
  have hnew := (Segment.holds_of_ofRange hrange).1
  refine ⟨w, _, hopen, Session.staysInStep_iff hnew hposition hrun, ?_⟩
  intro range hstart hproper hcovers keep
  have happended := Session.appended_of_appendAll hnew hrun
  have hholds := happended.holds
  rw [List.nil_append] at hholds
  have hfirst : s.segment.start = range.start := by
    rw [hstart]
    exact happended.start
  have hindices := hholds.consecutive
  rw [hfirst] at hindices
  have hwritten : (Writer.force (Writer.writeAll (steps.map (·.entry))
      (w, blank.setContent id magic)).2).2.2 =
        blank.setContent id (fileImage (steps.map (·.entry))) :=
    (hcarries.writeAll _).disk_force
  have hcontent := Disk.content_setContent hfile.bound (fileImage (steps.map (·.entry)))
  rw [hwritten]
  obtain ⟨-, seg, after, hload, hrestores⟩ := loadSegment_of_content range
    { s.toHost with disk := blank.setContent id (fileImage (steps.map (·.entry))) } keep (z := 0)
    (hfile.setContent _) (by rw [hcontent]; simp) (by simpa using hne) hproper hindices
    happended.bound (List.forall_mem_map.mpr hlimit) hfits
  have hadmitted := SegmentRange.admitted_eq_length hproper hindices
    (List.forall_mem_map.mpr hcovers)
  rw [hadmitted, List.take_length] at hrestores
  refine ⟨seg, after, hload, ?_⟩
  rw [hholds.agrees_iff hrestores.holds]
  exact List.forall_mem_map

/-- One entry with state machine data, measured whole: the segment takes 45 bytes for it, and the
writer 36. -/
theorem append_drifts_from_file : ∃ s w disk,
    Session.appendAll [(.wholeAppend, ⟨0, .sample 5⟩)]
        { refs := ⟨#[1]⟩, segment := .opening ⟨"data", .strict, 64⟩ 5 } = .ok () s ∧
      Writer.openOn "log" .everyWrite {} = .ok w disk ∧
      s.segment.fileSize = headerSize + 45 ∧
      (Writer.writeAll [.sample 5] (w, disk)).2.1.position = headerSize + 36 :=
  ⟨_, _, _, rfl, rfl, rfl, (Writer.position_writeAll _ _).trans rfl⟩

def plainRun : List Session.Addition :=
  [(.strippedAppend, ⟨0, (LogEntry.sample 5).stripped⟩),
    (.wholeAppend, ⟨1, (LogEntry.sample 6).stripped⟩)]

theorem plainRun_matches_file : ∃ s w disk seg after,
    Session.appendAll plainRun
      { refs := ⟨#[1, 1]⟩, segment := .opening ⟨"data", .strict, 64⟩ 5 } = .ok () s ∧
    Writer.openOn "log" .everyWrite {} = .ok w disk ∧
    Session.StaysInStep plainRun
      { refs := ⟨#[1, 1]⟩, segment := .opening ⟨"data", .strict, 64⟩ 5 } (w, disk) ∧
    loadSegment ⟨"data", .strict, 64⟩ "log" (.closed 5 6) false { s.toHost with
      disk := (Writer.force (Writer.writeAll (plainRun.map (·.entry)) (w, disk)).2).2.2 } =
        .ok (some seg) after ∧
    seg.records = s.segment.records ∧ seg.fileSize = s.segment.fileSize := by
  have hdisk : ({ refs := ⟨#[1, 1]⟩ } : Host).disk.WellFormed := Disk.wellFormed_empty
  have hblank : ({ refs := ⟨#[1, 1]⟩ } : Host).disk.Blank "log" := .inr Disk.vacant_empty
  have hlimit : ∀ a ∈ plainRun, a.entry.stripped.encodedSize ≤
      (SegmentContext.mk "data" .strict 64).maxEntrySize := by decide
  have hplain : ∀ a ∈ plainRun, a.entry.hasStateData = false := by decide
  obtain ⟨s, hrun⟩ : ∃ s, Session.appendAll plainRun
      { refs := ⟨#[1, 1]⟩, segment := .opening ⟨"data", .strict, 64⟩ 5 } = .ok () s := ⟨_, rfl⟩
  obtain ⟨w, disk, hopen, hstays, hreads⟩ := appends_match_file_iff hdisk hblank (by decide) hrun
    hlimit (by rw [length_fileImage]; decide) .everyWrite
  obtain ⟨seg, after, hload, hagrees⟩ := hreads (.closed 5 6) rfl (by decide) (by decide) false
  exact ⟨s, w, disk, seg, after, hrun, hopen, hstays.mpr hplain, hload, hagrees.mpr hplain⟩

end Host

end SegmentedLog
