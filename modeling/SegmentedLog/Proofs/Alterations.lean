import SegmentedLog.Proofs.ErrorDetection
import SegmentedLog.Proofs.Grammar
import SegmentedLog.Proofs.TornWrites

/-! # Files with an altered byte

The checksum of a frame is compared before its data is looked at. If one byte of the data or of the
checksum is altered, a scan therefore hands over the entries in front and reports corruption; no
altered entry is ever handed over. What a tolerant reconstruction leaves is the image of the entries
in front.
-/

namespace SegmentedLog

open Stepwise

theorem modify_append_append {α : Type} (front rest : List α) {middle : List α} {j : Nat}
    (hj : j < middle.length) (f : α → α) :
    (front ++ (middle ++ rest)).modify (front.length + j) f =
      front ++ (middle.modify j f ++ rest) := by
  rw [List.modify, List.modifyTailIdx_add]
  change front ++ (middle ++ rest).modify j f = _
  rw [List.modify_eq_take_drop, List.modify_eq_take_drop, List.take_append_of_le_length hj.le,
    List.drop_append_of_le_length hj.le, List.drop_eq_getElem_cons hj]
  simp only [List.cons_append, List.modifyHead_cons, List.append_assoc]

/-- Whether a position in a file lies in the data or the checksum of an entry, behind the image of
the entries in front. -/
structure InFrame (front : List LogEntry) (e : LogEntry) (position : Nat) : Prop where
  from_data : (fileImage front).length + Varint.size e.stripped.encodedSize ≤ position
  to_end : position < (fileImage (front ++ [e])).length

variable {range : SegmentRange} {limit j k position : Nat} {mask : UInt8} {data rest : Bytes}
  {e : LogEntry} {entries : List LogEntry}

theorem InFrame.image_modify {hk : k < entries.length}
    (h : InFrame (entries.take k) entries[k] position) (f : UInt8 → UInt8) {data : Bytes}
    (hdata : entries[k].stripped.encode = data) :
    ∃ j < (data ++ Checksum.trailer data).length, (fileImage entries).modify position f =
      fileImage (entries.take k) ++ (Varint.encode data.length ++
        ((data ++ Checksum.trailer data).modify j f ++
          (entries.drop (k + 1)).flatMap Frame.ofEntry)) := by
  have hstart := h.from_data
  have hend := h.to_end
  have hframe : Frame.ofEntry entries[k] =
      Varint.encode data.length ++ (data ++ Checksum.trailer data) := by rw [← hdata]; rfl
  rw [← LogEntry.length_encode, hdata, ← Varint.length_encode, ← List.length_append] at hstart
  rw [fileImage_append, List.flatMap_singleton, hframe, ← List.append_assoc,
    List.length_append] at hend
  obtain ⟨j, rfl⟩ := Nat.exists_eq_add_of_le hstart
  refine ⟨j, by omega, ?_⟩
  rw [fileImage_split hk, hframe, ← List.append_assoc, ← List.append_assoc, List.append_assoc _ _
    (List.flatMap _ _), modify_append_append _ _ (by omega), List.append_assoc]

/-! ## What is read back -/

theorem Reader.next_altered {r : Reader} (h : r.Awaits range limit (Varint.encode data.length ++
      ((data ++ Checksum.trailer data).modify j (· ^^^ mask) ++ rest)))
    (hmask : mask ≠ 0) (hj : j < (data ++ Checksum.trailer data).length) (hdata : data ≠ [])
    (hcapacity : data.length < capacityLimit) :
    ∃ cause r', next r = .error (.error (.corruption cause)) r' := by
  have hwidth : data.length < UInt64.size := lt_trans hcapacity (by decide)
  obtain ⟨s, hs, hnext⟩ := next_of_length h (Varint.isNumber_encode _)
    (Varint.length_encode_le hwidth) (Varint.value_encode_mod hwidth) hdata
  rcases frame_cases (h.withSource hs) (fun _ => hcapacity) with
    ⟨other, rest', hbytes, hlength, -⟩ | ⟨cause, r', hframe⟩
  · rw [← List.append_assoc] at hbytes
    have hsealed := (List.append_inj hbytes (by simp [hlength, Checksum.length_trailer])).1
    exact absurd hsealed (Checksum.modify_ne_sealed hmask hj hlength)
  · exact ⟨cause, r', hnext.trans hframe⟩

theorem SegmentRange.EndsBefore.mono {index index' : UInt64} (h : range.EndsBefore index)
    (hle : index.toNat ≤ index'.toNat) : range.EndsBefore index' :=
  ⟨h.1, UInt64.lt_iff_toNat_lt.mpr ((UInt64.lt_iff_toNat_lt.mp h.2).trans_le hle)⟩

namespace Disk

variable {disk : Disk} {path : String} {id : FileId}

/-- A scan hands over the entries in front of the altered one, and no more. -/
theorem scan_altered (hfile : disk.HasFile path id)
    (hcontent : disk.content id = (fileImage entries).modify position (· ^^^ mask))
    {hk : k < entries.length} (hposition : InFrame (entries.take k) entries[k] position)
    (hmask : mask ≠ 0) (htakes : ∀ e ∈ entries, Reader.Takes limit e)
    (hindices : Consecutive range.start.toNat (entries.map (·.index)))
    (hadmits : ¬ range.EndsBefore entries[k].index) :
    ∃ cause, disk.scan path range limit =
      ⟨(entries.take k).map (·.stripped), some (.error (.corruption cause))⟩ := by
  have hlast : ∀ e ∈ entries.take k, ¬ range.EndsBefore e.index := by
    intro e he hends
    obtain ⟨i, hi, rfl⟩ := List.mem_iff_getElem.mp he
    rw [List.length_take] at hi
    have hbefore := hindices.toNat_getElem (k := i) (by simp; omega)
    have hthere := hindices.toNat_getElem (k := k) (by simpa using hk)
    rw [List.getElem_map] at hbefore hthere
    rw [List.getElem_take] at hends
    exact hadmits (hends.mono (by omega))
  have htaken := htakes _ (List.getElem_mem hk)
  obtain ⟨j, hj, himage⟩ := hposition.image_modify (· ^^^ mask) rfl
  obtain ⟨previous, r, hscan, -, hr⟩ := Scan.ofSource_frames
    (fun e he => htakes e (List.mem_of_mem_take he)) (by rw [List.map_take]; exact hindices.take k)
    hlast path _
  obtain ⟨cause, r', hnext⟩ := Reader.next_altered hr hmask hj (LogEntry.encode_ne_nil _)
    htaken.length_lt
  refine ⟨cause, ?_⟩
  rw [scan_of_find range limit hfile.find, hcontent, himage, hscan, Scan.ofReader_of_error hnext]
  simp [Scan.failed]

end Disk

namespace Host

variable {host : Host} {path : String} {runs : List (SyncPolicy × List LogEntry)}
  {context : SegmentContext}

/-- Whichever byte of an entry or its checksum is altered and however, a scan of the file hands over
the entries in front and reports corruption. A strict reconstruction reports the same and leaves the
file; a tolerant one gets the segment of the entries in front, or no segment and no file if there
are none. -/
theorem loadSegment_of_altered (hdisk : host.disk.WellFormed) (hblank : host.disk.Blank path)
    (hsplit : runs.flatMap (·.2) = entries) (hproper : range.Proper)
    (hindices : Consecutive range.start.toNat (entries.map (·.index)))
    (hbound : ∀ e ∈ entries, e.index.toNat + 1 < UInt64.size)
    (hlimit : ∀ e ∈ entries, e.stripped.encodedSize ≤ context.maxEntrySize)
    (hfits : (fileImage entries).length < Disk.lengthLimit)
    (hk : k < entries.length) (hposition : InFrame (entries.take k) entries[k] position)
    (hmask : mask ≠ 0) (hadmits : ¬ range.EndsBefore entries[k].index) (keep : Bool) :
    ∃ written altered cause, Writer.sessions path runs host.disk = .ok () written ∧
      Disk.update path (·.modify position (· ^^^ mask)) written = .ok () altered ∧
      altered.scan path range context.maxEntrySize =
        ⟨(entries.take k).map (·.stripped), some (.error (.corruption cause))⟩ ∧
      match context.policy with
      | .strict =>
        ∃ after, loadSegment context path range keep { host with disk := altered } =
          .error (.error (.corruption cause)) after ∧ after.disk = altered
      | .tolerant =>
        if k = 0 then
          ∃ after, loadSegment context path range keep { host with disk := altered } =
            .ok none after ∧ after.disk.find path = .error .notFound
        else
          ∃ seg after, loadSegment context path range keep { host with disk := altered } =
              .ok (some seg) after ∧
            seg.Mirrors range.start (entries.take k) ∧
            after.disk.read path = .ok (fileImage (entries.take k)) := by
  have hruns : runs ≠ [] := by
    rintro rfl
    rw [← hsplit] at hk
    exact Nat.not_lt_zero k hk
  obtain ⟨id, start, hfile, hsessions⟩ := Writer.sessions_of_blank hdisk hblank hruns
  rw [hsplit] at hsessions
  have hupdate := Disk.update_of_file (hfile.setContent (fileImage entries)).find
    (·.modify position (· ^^^ mask))
  rw [Disk.content_setContent hfile.bound, Disk.setContent_setContent] at hupdate
  have haltered := hfile.setContent ((fileImage entries).modify position (· ^^^ mask))
  have hcontent := Disk.content_setContent hfile.bound
    ((fileImage entries).modify position (· ^^^ mask))
  obtain ⟨cause, hscan⟩ := Disk.scan_altered haltered hcontent hposition hmask
    (takes_of_fits hlimit hfits) hindices hadmits
  refine ⟨_, _, cause, hsessions, hupdate, hscan, ?_⟩
  generalize start.setContent id ((fileImage entries).modify position (· ^^^ mask)) = altered at *
  have hindices' : Consecutive range.start.toNat ((entries.take k).map (·.index)) := by
    rw [List.map_take]
    exact hindices.take k
  have hbound' : ∀ e ∈ entries.take k, e.index.toNat + 1 < UInt64.size :=
    fun e he => hbound e (List.mem_of_mem_take he)
  cases hpolicy : context.policy with
  | strict =>
    exact loadSegment_of_refusal { host with disk := altered } keep hproper hscan hindices' hbound'
      (by rw [hpolicy]; rfl)
  | tolerant =>
    dsimp only
    split
    · next hzero =>
      exact loadSegment_of_nothing { host with disk := altered } keep hproper hscan hindices'
        hbound' (by rw [hzero, List.take_zero]) (by rw [hpolicy]; rfl) haltered
    · next hsome =>
      obtain ⟨j, -, himage⟩ := hposition.image_modify (· ^^^ mask) rfl
      have hfront : (fileImage (entries.take k)).length < Disk.lengthLimit := by
        rw [fileImage_split hk, List.length_append] at hfits
        omega
      have htaken : entries.take k ≠ [] := by
        rw [Ne, List.take_eq_nil_iff, not_or]
        exact ⟨hsome, List.ne_nil_of_length_pos (by omega)⟩
      obtain ⟨seg, after, hload, hrestores⟩ := loadSegment_of_image { host with disk := altered }
        keep hproper hscan hindices' hbound' htaken (by rw [hpolicy]; rfl) haltered
        (hcontent.trans himage) fun _ => hfront
      exact ⟨seg, after, hload, hrestores.mirrors htaken, hrestores.read haltered⟩

/-- Of two entries the index of the second is altered. -/
theorem loadSegment_of_altered_second : ∃ written altered seg after,
    Writer.sessions "log" [(.everyWrite, [.sample 5, .sample 6])] {} = .ok () written ∧
    Disk.update "log" (·.modify 53 (· ^^^ 1)) written = .ok () altered ∧
    loadSegment ⟨"data", .tolerant, 64⟩ "log" (.closed 5 6) false { disk := altered } =
      .ok (some seg) after ∧
    seg.Mirrors 5 [.sample 5] ∧ after.disk.read "log" = .ok (fileImage [.sample 5]) := by
  have hdisk : ({} : Host).disk.WellFormed := Disk.wellFormed_empty
  have hblank : ({} : Host).disk.Blank "log" := .inr Disk.vacant_empty
  have hsplit : [(SyncPolicy.everyWrite, [LogEntry.sample 5, .sample 6])].flatMap (·.2) =
      [.sample 5, .sample 6] := rfl
  have hproper : (SegmentRange.closed 5 6).Proper := by decide
  have hlimit : ∀ e ∈ [LogEntry.sample 5, .sample 6],
      e.stripped.encodedSize ≤ (SegmentContext.mk "data" .tolerant 64).maxEntrySize := by decide
  have hposition : InFrame [.sample 5] (.sample 6) 53 :=
    ⟨by rw [length_fileImage]; decide, by rw [length_fileImage]; decide⟩
  have hadmits : ¬ (SegmentRange.closed 5 6).EndsBefore (LogEntry.sample 6).index := by decide
  obtain ⟨written, altered, cause, hwritten, haltered, -, seg, after, hload, hmirrors, hread⟩ :=
    loadSegment_of_altered hdisk hblank hsplit hproper (by decide) (by decide) hlimit
      (by rw [length_fileImage]; decide) Nat.one_lt_two hposition (show (1 : UInt8) ≠ 0 by decide)
      hadmits false
  exact ⟨written, altered, seg, after, hwritten, haltered, hload, hmirrors, hread⟩

end Host

end SegmentedLog
