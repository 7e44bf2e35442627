import SegmentedLog.Proofs.Recovery

/-! # What is written is what is read back

Entries are written in any number of sessions, zeros may follow, and the file is read for any range
from the first index on. What comes back is what the range admits, and the file is cut behind it.
-/

namespace SegmentedLog

open Stepwise

namespace SegmentRange

/-- How many of `count` indices from the start on a range admits. -/
def admitted (range : SegmentRange) (count : Nat) : Nat :=
  if range.isOpen then count else min count (range.last.toNat + 1 - range.start.toNat)

variable {range : SegmentRange} {count : Nat} {index : UInt64}

theorem admitted_le (range : SegmentRange) (count : Nat) : range.admitted count ≤ count := by
  unfold admitted
  split
  · exact le_rfl
  · exact Nat.min_le_left _ _

theorem admitted_pos (h : range.Proper) (hcount : 0 < count) : 0 < range.admitted count := by
  unfold admitted
  split
  · exact hcount
  · next hopen =>
    have horder := UInt64.le_iff_toNat_le.mp (h (by simpa using hopen)).1
    exact Nat.lt_min.mpr ⟨hcount, by omega⟩

/-- An index is within the range as long as it is one of the admitted. -/
theorem endsBefore_iff (h : range.Proper) {k : Nat} (hk : k < count)
    (hindex : index.toNat = range.start.toNat + k) :
    range.EndsBefore index ↔ range.admitted count ≤ k := by
  unfold EndsBefore admitted
  cases hopen : range.isOpen with
  | true => simpa using hk
  | false =>
    have horder := UInt64.le_iff_toNat_le.mp (h hopen).1
    rw [UInt64.lt_iff_toNat_lt, hindex]
    simp
    omega

/-- A range that covers every entry of a run admits all of them. -/
theorem admitted_eq_length {entries : List LogEntry}
    (hproper : range.Proper) (hindices : Consecutive range.start.toNat (entries.map (·.index)))
    (hcovers : ∀ e ∈ entries, ¬ range.EndsBefore e.index) :
    range.admitted entries.length = entries.length := by
  by_contra hne
  have hlt := lt_of_le_of_ne (range.admitted_le entries.length) hne
  have hindex := hindices.toNat_getElem (k := range.admitted entries.length) (by simpa using hlt)
  rw [List.getElem_map] at hindex
  exact hcovers _ (List.getElem_mem hlt) ((endsBefore_iff hproper hlt hindex).mpr le_rfl)

end SegmentRange

namespace Disk

variable {disk : Disk} {path : String} {id : FileId} {range : SegmentRange} {limit z : Nat}
  {entries : List LogEntry}

/-- A scan of an image with zeros behind it hands over what the range admits. -/
theorem scan_image (hfile : disk.HasFile path id)
    (hcontent : disk.content id = fileImage entries ++ List.replicate z 0)
    (hproper : range.Proper) (htakes : ∀ e ∈ entries, Reader.Takes limit e)
    (hindices : Consecutive range.start.toNat (entries.map (·.index))) :
    disk.scan path range limit =
      ⟨(entries.take (range.admitted entries.length)).map (·.stripped), none⟩ := by
  have hindex (k : Nat) (hk : k < entries.length) :
      entries[k].index.toNat = range.start.toNat + k := by
    have hget := hindices.toNat_getElem (k := k) (by simpa using hk)
    simpa using hget
  have hadmitted : ∀ e ∈ entries.take (range.admitted entries.length),
      ¬ range.EndsBefore e.index := by
    intro e he
    obtain ⟨k, hk, rfl⟩ := List.mem_iff_getElem.mp he
    have hlt := (List.length_take ▸ hk : k < min _ _)
    have hk' : k < entries.length := by omega
    rw [List.getElem_take, SegmentRange.endsBefore_iff hproper hk' (hindex k hk')]
    omega
  have hscan : disk.scan path range limit = Scan.ofSource path range limit
      { pending := fileImage entries ++ List.replicate z 0 } := by
    rw [scan_of_find range limit hfile.find, hcontent]
  have hle := SegmentRange.admitted_le range entries.length
  rw [hscan]
  generalize hm : range.admitted entries.length = m at *
  by_cases hall : m = entries.length
  · rw [hall, List.take_length] at hadmitted ⊢
    exact Scan.ofSource_zeros htakes hindices hadmitted path z
  · have hlt : m < entries.length := by omega
    have himage : fileImage entries ++ List.replicate z 0 = fileImage (entries.take m) ++
        (Frame.ofEntry entries[m] ++
          ((entries.drop (m + 1)).flatMap Frame.ofEntry ++ List.replicate z 0)) := by
      rw [fileImage_split hlt]
      simp only [List.append_assoc]
    rw [himage]
    refine Scan.ofSource_past (fun e he => htakes e (List.mem_of_mem_take he)) ?_ hadmitted path
      (htakes _ (List.getElem_mem hlt)) ?_ ?_ _
    · rw [List.map_take]
      exact hindices.take m
    · rw [hindex m hlt, List.length_take, Nat.min_eq_left hlt.le]
    · rw [SegmentRange.endsBefore_iff hproper hlt (hindex m hlt), hm]

end Disk

namespace Host

variable {host : Host} {path : String} {runs : List (SyncPolicy × List LogEntry)}
  {entries : List LogEntry} {range : SegmentRange} {context : SegmentContext}

/-- Entries a reader takes in: they fit the limit, and the file that holds them all has a length. -/
theorem takes_of_fits {limit : Nat} (hlimit : ∀ e ∈ entries, e.stripped.encodedSize ≤ limit)
    (hfits : (fileImage entries).length < Disk.lengthLimit) :
    ∀ e ∈ entries, Reader.Takes limit e := by
  intro e he
  refine ⟨hlimit e he, ?_⟩
  have hle : e.stripped.footprint ≤ (entries.map (·.stripped.footprint)).sum :=
    List.single_le_sum (by simp) _ (List.mem_map_of_mem he)
  rw [length_fileImage] at hfits
  rw [LogEntry.footprint, frameSize] at hle
  unfold Disk.lengthLimit at hfits
  unfold Reader.capacityLimit
  omega

/-- An image with zeros behind it is read back as far as the range admits. -/
theorem loadSegment_of_content (range : SegmentRange) (host : Host) (keep : Bool) {id : FileId}
    {z : Nat} (hfile : host.disk.HasFile path id)
    (hcontent : host.disk.content id = fileImage entries ++ List.replicate z 0)
    (hne : entries ≠ []) (hproper : range.Proper)
    (hindices : Consecutive range.start.toNat (entries.map (·.index)))
    (hbound : ∀ e ∈ entries, e.index.toNat + 1 < UInt64.size)
    (hlimit : ∀ e ∈ entries, e.stripped.encodedSize ≤ context.maxEntrySize)
    (hfits : (fileImage entries).length < Disk.lengthLimit) :
    entries.take (range.admitted entries.length) ≠ [] ∧ ∃ seg after,
      loadSegment context path range keep host = .ok (some seg) after ∧
      Restores host id range keep (entries.take (range.admitted entries.length)) seg after := by
  have hscan := Disk.scan_image hfile hcontent hproper (takes_of_fits hlimit hfits) hindices
  have hpos := SegmentRange.admitted_pos hproper (List.length_pos_iff.mpr hne)
  generalize range.admitted entries.length = m at hscan hpos ⊢
  have htaken : entries.take m ≠ [] := by
    intro hnil
    rw [List.take_eq_nil_iff] at hnil
    rcases hnil with hzero | hnil
    · omega
    · exact hne hnil
  have himage : fileImage entries =
      fileImage (entries.take m) ++ (entries.drop m).flatMap Frame.ofEntry := by
    rw [← fileImage_append, List.take_append_drop]
  have hlength := congrArg List.length himage
  rw [List.length_append] at hlength
  rw [himage, List.append_assoc] at hcontent
  refine ⟨htaken, loadSegment_of_image host keep hproper hscan ?_ ?_ htaken rfl hfile hcontent ?_⟩
  · rw [List.map_take]
    exact hindices.take m
  · intro e he
    exact hbound e (List.mem_of_mem_take he)
  · omega

/-- Entries that were written in sessions to a new or empty file, with zeros behind them, are read
back as far as the range admits them, whatever the policy: as records and headers without state
machine data, to the sink, and to the cache if they are kept. The file is cut behind the last. -/
theorem loadSegment_of_sessions (hdisk : host.disk.WellFormed) (hblank : host.disk.Blank path)
    (hsplit : runs.flatMap (·.2) = entries) (hne : entries ≠ []) (hproper : range.Proper)
    (hindices : Consecutive range.start.toNat (entries.map (·.index)))
    (hbound : ∀ e ∈ entries, e.index.toNat + 1 < UInt64.size)
    (hlimit : ∀ e ∈ entries, e.stripped.encodedSize ≤ context.maxEntrySize)
    (hfits : (fileImage entries).length < Disk.lengthLimit) (z : Nat) (keep : Bool) :
    ∃ written padded seg after,
      Writer.sessions path runs host.disk = .ok () written ∧
      Disk.update path (· ++ List.replicate z 0) written = .ok () padded ∧
      loadSegment context path range keep { host with disk := padded } = .ok (some seg) after ∧
      seg.Mirrors range.start (entries.take (range.admitted entries.length)) ∧
      after.disk.read path =
        .ok (fileImage (entries.take (range.admitted entries.length))) ∧
      (∀ received, host.sink = .listening received → after.sink = .listening
        (received ++ (entries.take (range.admitted entries.length)).map (·.stripped))) ∧
      ∀ key, (seg.cache.find? key).map (·.ref.entry) =
        if keep || range.isOpen then
          ((entries.take (range.admitted entries.length)).map (·.stripped)).find? (·.key = key)
        else none := by
  have hruns : runs ≠ [] := by
    rintro rfl
    exact hne hsplit.symm
  obtain ⟨id, start, hfile, hsessions⟩ := Writer.sessions_of_blank hdisk hblank hruns
  rw [hsplit] at hsessions
  have hpad := Disk.update_of_file (hfile.setContent (fileImage entries)).find
    (· ++ List.replicate z 0)
  rw [Disk.content_setContent hfile.bound, Disk.setContent_setContent] at hpad
  have hpadded := hfile.setContent (fileImage entries ++ List.replicate z 0)
  have hcontent := Disk.content_setContent hfile.bound (fileImage entries ++ List.replicate z 0)
  obtain ⟨htaken, seg, after, hload, hrestores⟩ := loadSegment_of_content range
    { host with disk := start.setContent id (fileImage entries ++ List.replicate z 0) } keep
    hpadded hcontent hne hproper hindices hbound hlimit hfits
  exact ⟨_, _, seg, after, hsessions, hpad, hload, hrestores.mirrors htaken,
    hrestores.read hpadded, fun _ => hrestores.received, hrestores.cached⟩

/-- Two sessions with one entry each, read back for a range that admits the first. -/
theorem loadSegment_of_two_sessions : ∃ written padded seg after,
    Writer.sessions "log" [(.everyWrite, [.sample 5]), (.everyEntries 3, [.sample 6])] {} =
      .ok () written ∧
    Disk.update "log" (· ++ List.replicate 2 0) written = .ok () padded ∧
    loadSegment ⟨"data", .tolerant, 64⟩ "log" (.closed 5 5) false { disk := padded } =
      .ok (some seg) after ∧
    seg.Mirrors 5 [.sample 5] := by
  have hdisk : ({} : Host).disk.WellFormed := Disk.wellFormed_empty
  have hblank : ({} : Host).disk.Blank "log" := .inr Disk.vacant_empty
  have hsplit : [(SyncPolicy.everyWrite, [LogEntry.sample 5]),
      (.everyEntries 3, [.sample 6])].flatMap (·.2) = [.sample 5, .sample 6] := rfl
  have hproper : (SegmentRange.closed 5 5).Proper := by decide
  have hlimit : ∀ e ∈ [LogEntry.sample 5, .sample 6],
      e.stripped.encodedSize ≤ (SegmentContext.mk "data" .tolerant 64).maxEntrySize := by decide
  obtain ⟨written, padded, seg, after, hwritten, hpadded, hload, hmirrors, -⟩ :=
    loadSegment_of_sessions hdisk hblank hsplit (by decide) hproper (by decide) (by decide) hlimit
      (by rw [length_fileImage]; decide) 2 false
  exact ⟨written, padded, seg, after, hwritten, hpadded, hload, hmirrors⟩

end Host

end SegmentedLog
