import SegmentedLog.Proofs.FileEffects
import SegmentedLog.Proofs.Ranges

/-! # Reading a reconstructed file again

A reconstruction cuts the file to the size its segment accounts for, not to where its reader stood.
These are the same exactly if the file started with frames as a writer lays them out: then the file
that is left is complete, and reading it again changes nothing. Where a length was written longer
than necessary, or something stood behind an entry in its frame, the cut takes away the end of what
was read.
-/

namespace SegmentedLog

open Stepwise

namespace Host

variable {host after : Host} {context : SegmentContext} {path : String} {range : SegmentRange}
  {keep : Bool} {seg : Segment} {entries : List LogEntry} {id : FileId}

theorem Yielded.takes (h : Yielded context path range keep host entries seg after) :
    ∀ e ∈ entries, Reader.Takes context.maxEntrySize e := by
  obtain ⟨id, hfile, -, -⟩ := h.cut
  rw [← h.scanned, Disk.scan_of_find range _ hfile.find]
  exact Scan.ofSource_takes path range _ _

theorem Yielded.fileSize (h : Yielded context path range keep host entries seg after) :
    seg.fileSize = (fileImage entries).length := by
  rw [h.holds.fileSize, length_fileImage_of_plain h.plain]

/-- Of a file that started with the image of what was read nothing but this image is left. -/
theorem Yielded.left (h : Yielded context path range keep host entries seg after)
    {content : Bytes} (hread : host.disk.read path = .ok content)
    (himage : fileImage entries <+: content) :
    ∃ id, host.disk.HasFile path id ∧ after.disk = host.disk.setContent id (fileImage entries) := by
  obtain ⟨id, hfile, -, hdisk⟩ := h.cut
  obtain ⟨id', hfind, hcontent⟩ := Disk.read_eq_ok.mp hread
  cases hfile.find.symm.trans hfind
  obtain ⟨rest, rfl⟩ := himage
  rw [hcontent, h.fileSize, List.take_left] at hdisk
  exact ⟨id, hfile, hdisk⟩

/-- So it is complete, and another scan of the file, under whatever name, hands over the same. -/
theorem Yielded.scan_again (h : Yielded context path range keep host entries seg after)
    {content : Bytes} (hread : host.disk.read path = .ok content)
    (himage : fileImage entries <+: content) {name : String} {id : FileId}
    (hname : after.disk.HasFile name id) (hpath : host.disk.HasFile path id) :
    after.disk.content id = fileImage entries ∧
      after.disk.scan name seg.range context.maxEntrySize = ⟨entries, none⟩ := by
  obtain ⟨id', hfile, hdisk⟩ := h.left hread himage
  cases hpath.find.symm.trans hfile.find
  have hbytes : after.disk.content id = fileImage entries :=
    hdisk ▸ Disk.content_setContent hfile.bound _
  have hindices := h.holds.consecutive
  rw [← seg.start_range] at hindices
  have hscan := Disk.scan_image (z := 0) hname (by rw [hbytes]; simp)
    (h.holds.proper_range h.nonempty) h.takes hindices
  rw [h.holds.admitted_range h.nonempty le_rfl fun _ => rfl, List.take_length,
    LogEntry.map_stripped h.plain] at hscan
  exact ⟨hbytes, hscan⟩

theorem Yielded.again (h : Yielded context path range keep host entries seg after)
    {content : Bytes} (hread : host.disk.read path = .ok content)
    (himage : fileImage entries <+: content) (policy : CorruptionPolicy) (keep' : Bool) :
    ∃ seg' after', loadSegment { context with policy } path seg.range keep' after =
        .ok (some seg') after' ∧
      seg'.records = seg.records ∧ seg'.fileSize = seg.fileSize ∧
      seg'.lastKey? = seg.lastKey? ∧ after'.disk.read path = after.disk.read path := by
  obtain ⟨id, hfile, hdisk⟩ := h.left hread himage
  have hleft : after.disk.HasFile path id := hdisk ▸ hfile.setContent _
  obtain ⟨hbytes, hscan⟩ := h.scan_again hread himage hleft hfile
  rw [← LogEntry.map_stripped h.plain] at hscan
  have hindices := h.holds.consecutive
  rw [← seg.start_range] at hindices
  have hwhole : after.disk.content id = fileImage entries ++ [] := by
    rw [hbytes, List.append_nil]
  obtain ⟨seg', after', hload, hrestores⟩ : ∃ seg' after', loadSegment { context with policy } path
      seg.range keep' after = .ok (some seg') after' ∧
      Restores after id seg.range keep' entries seg' after' :=
    loadSegment_of_image (n := (entries.map (·.stripped)).length) after keep'
      (h.holds.proper_range h.nonempty) hscan hindices h.holds.bound h.nonempty rfl hleft hwhole
      (absurd rfl)
  have hholds := hrestores.holds
  rw [LogEntry.map_stripped h.plain] at hholds
  have hrecords : seg'.records = seg.records := hholds.records.trans h.holds.records.symm
  refine ⟨seg', after', hload, hrecords, hholds.fileSize.trans h.holds.fileSize.symm, ?_, ?_⟩
  · change seg'.records.getLast?.map _ = seg.records.getLast?.map _
    rw [hrecords]
  · rw [hrestores.read hleft, Disk.read_eq_ok.mpr ⟨id, hleft.find, hbytes⟩]

/-- Reading a file that was cut gives the same segment only if nothing of what was read was cut. -/
theorem Yielded.image_of_again (h : Yielded context path range keep host entries seg after)
    {policy : CorruptionPolicy} {keep' : Bool} {seg' : Segment} {after' : Host}
    (hagain : loadSegment { context with policy } path seg.range keep' after =
      .ok (some seg') after')
    (hrecords : seg'.records = seg.records) (hsize : seg'.fileSize = seg.fileSize) :
    ∃ content, host.disk.read path = .ok content ∧ fileImage entries <+: content := by
  obtain ⟨entries', h'⟩ := loadSegment_eq_some hagain
  obtain ⟨id, hfile, hlength, hdisk⟩ := h.cut
  have hleft : after.disk.HasFile path id := hdisk ▸ hfile.setContent _
  have hbytes : after.disk.content id = (host.disk.content id).take seg.fileSize :=
    hdisk ▸ Disk.content_setContent hfile.bound _
  have hscan' := h'.scanned
  rw [Disk.scan_of_find _ _ hleft.find, hbytes] at hscan'
  change (Scan.ofSource path seg.range context.maxEntrySize _).entries = entries' at hscan'
  have himage : (host.disk.content id).take seg.fileSize = fileImage entries' := by
    have hunread := Scan.unread_eq_fileImage path seg.range context.maxEntrySize
      { pending := (host.disk.content id).take seg.fileSize }
    rw [hscan'] at hunread
    refine hunread h'.plain h'.nonempty ?_
    change _ = ((host.disk.content id).take seg.fileSize).length
    rw [← h'.holds.fileSize, hsize, List.length_take, Nat.min_eq_left hlength]
  have hcontent : host.disk.content id = fileImage entries' ++
      (host.disk.content id).drop seg.fileSize := by
    rw [← himage, List.take_append_drop]
  have hsame : entries'.map (·.index) = entries.map (·.index) := by
    rw [← LogRecord.map_index_layout headerSize, ← h'.holds.records, hrecords, h.holds.records,
      LogRecord.map_index_layout]
  have hindices : Consecutive range.start.toNat (entries'.map (·.index)) := by
    rw [hsame, ← h.start]
    exact h.holds.consecutive
  have hlast : ∀ e ∈ entries', ¬ range.EndsBefore e.index := by
    have hsound := (scan_sound host.disk path range context.maxEntrySize).2
    rw [h.scanned] at hsound
    intro e he
    obtain ⟨e', he', hindex⟩ := List.mem_map.mp (hsame ▸ List.mem_map_of_mem he)
    rw [← hindex]
    exact hsound e' he'
  obtain ⟨previous, r, hfirst, -, -⟩ := Scan.ofSource_frames h'.takes hindices hlast path
    ((host.disk.content id).drop seg.fileSize)
  rw [← hcontent, ← Disk.scan_of_find range _ hfile.find, LogEntry.map_stripped h'.plain] at hfirst
  have hentries := congrArg Scan.entries hfirst
  rw [h.scanned] at hentries
  have hcount := congrArg List.length hentries
  have hcount' := congrArg List.length hsame
  rw [List.length_append] at hcount
  rw [List.length_map, List.length_map] at hcount'
  have hnil : (Scan.ofReader previous r).entries = [] := List.length_eq_zero_iff.mp (by
    change entries.length = entries'.length + _ at hcount
    omega)
  change entries = entries' ++ _ at hentries
  rw [hnil, List.append_nil] at hentries
  refine ⟨_, Disk.read_eq_ok.mpr ⟨id, hfile.find, rfl⟩, ?_⟩
  rw [hentries, ← himage]
  exact List.take_prefix _ _

/-- The file that a reconstruction leaves is a complete segment file, from which the same segment is
reconstructed under the strict policy, exactly if it started with the image of what was read. -/
theorem loadSegment_again_iff
    (hload : loadSegment context path range keep host = .ok (some seg) after) (keep' : Bool) :
    (∃ seg' after', loadSegment { context with policy := .strict } path seg.range keep' after =
        .ok (some seg') after' ∧
      seg'.records = seg.records ∧ seg'.fileSize = seg.fileSize ∧
      seg'.lastKey? = seg.lastKey? ∧ after'.disk.read path = after.disk.read path) ↔
    ∃ content, host.disk.read path = .ok content ∧
      fileImage (host.disk.scan path range context.maxEntrySize).entries <+: content := by
  obtain ⟨entries, h⟩ := loadSegment_eq_some hload
  rw [h.scanned]
  constructor
  · rintro ⟨seg', after', hagain, hrecords, hsize, -, -⟩
    exact h.image_of_again hagain hrecords hsize
  · rintro ⟨content, hread, himage⟩
    exact h.again hread himage .strict keep'

def singleFile (content : Bytes) : Host :=
  { disk := { directories := #[[("log", .file ⟨0⟩)]], contents := #[content] } }

theorem singleFile_hasFile (content : Bytes) : (singleFile content).disk.HasFile "log" ⟨0⟩ :=
  ⟨rfl, Nat.one_pos⟩

theorem loadSegment_again_of_padded : ∃ seg after seg' after',
    loadSegment ⟨"data", .tolerant, 64⟩ "log" (.opening 5) false
        (singleFile (fileImage [.sample 5] ++ List.replicate 2 0)) = .ok (some seg) after ∧
      loadSegment ⟨"data", .strict, 64⟩ "log" seg.range true after = .ok (some seg') after' ∧
      seg'.records = seg.records ∧ after'.disk.read "log" = after.disk.read "log" := by
  have hfile := singleFile_hasFile (fileImage [.sample 5] ++ List.replicate 2 0)
  have hproper : (SegmentRange.opening 5).Proper := by decide
  have hindices : Consecutive (SegmentRange.opening 5).start.toNat
      ([LogEntry.sample 5].map (·.index)) := by decide
  have hlimit : ∀ e ∈ [LogEntry.sample 5],
      e.stripped.encodedSize ≤ (SegmentContext.mk "data" .tolerant 64).maxEntrySize := by decide
  have hfits : (fileImage [.sample 5]).length < Disk.lengthLimit := by
    rw [length_fileImage]
    decide
  have hscan := Disk.scan_image hfile rfl hproper (takes_of_fits hlimit hfits) hindices
  obtain ⟨-, seg, after, hload, -⟩ := loadSegment_of_content (.opening 5) _ false hfile rfl
    (by decide) hproper hindices (by decide) hlimit hfits
  obtain ⟨seg', after', hagain, hrecords, -, -, hread⟩ := (loadSegment_again_iff hload true).mpr
    ⟨_, Disk.read_eq_ok.mpr ⟨_, hfile.find, rfl⟩, by rw [hscan]; exact List.prefix_append _ _⟩
  exact ⟨seg, after, seg', after', hload, hagain, hrecords, hread⟩

/-! ## A length in more bytes than necessary -/

end Host

namespace Scan

variable {range : SegmentRange} {limit : Nat} {number : Bytes} {e : LogEntry}
  (hnumber : Varint.IsNumber number) (hroom : number.length ≤ Varint.maxSize)
  (hvalue : Varint.value number = e.stripped.encode.length) (he : Reader.Takes limit e)

include hnumber hroom hvalue he

theorem ofSource_numbered (path : String) (hstart : e.index = range.start)
    (hlast : ¬ range.EndsBefore e.index) :
    ofSource path range limit { pending := magic ++ (number ++
        (e.stripped.encode ++ Checksum.trailer e.stripped.encode)) } =
      ⟨[e.stripped], none⟩ := by
  obtain ⟨r, hopen, hr⟩ := Reader.openOn_magic path range limit
    (number ++ (e.stripped.encode ++ Checksum.trailer e.stripped.encode))
  rw [← List.append_nil (Checksum.trailer _)] at hr
  have hlength : Varint.value number % UInt64.size = e.stripped.encode.length := by
    rw [hvalue, Nat.mod_eq_of_lt (lt_trans he.length_lt (by decide))]
  obtain ⟨r', hnext, hr'⟩ := Reader.next_numbered hr hnumber hroom hlength
    (LogEntry.encode_ne_nil _) he.length_le he.length_lt
  have hfirst : r'.range.start ≤ e.stripped.index := by
    rw [hr'.range, ← hstart]
    exact UInt64.le_refl _
  rw [Reader.accept_admitted he.decode hfirst (by rw [hr'.range]; exact hlast)] at hnext
  have horder : checkOrder r.path r.range.start none e.stripped.index = .ok () :=
    if_pos (hstart.trans (congrArg SegmentRange.start hr.range).symm)
  obtain ⟨r'', hend⟩ := Reader.next_nil (r := { r' with
    position := r'.position + frameSize e.stripped.encode.length }) ⟨hr'.1, hr'.2, hr'.3, hr'.4⟩
  rw [ofSource, hopen]
  dsimp only
  rw [ofReader_of_some hnext, horder]
  dsimp only
  rw [ofReader_of_none hend]
  rfl

theorem ofSource_numbered_torn (path : String) (range : SegmentRange) {k : Nat}
    (hk : k < (e.stripped.encode ++ Checksum.trailer e.stripped.encode).length) :
    ∃ cause, ofSource path range limit { pending := magic ++ (number ++
        (e.stripped.encode ++ Checksum.trailer e.stripped.encode).take k) } =
      ⟨[], some (.error (.corruption cause))⟩ := by
  obtain ⟨r, hopen, hr⟩ := Reader.openOn_magic path range limit
    (number ++ (e.stripped.encode ++ Checksum.trailer e.stripped.encode).take k)
  have hlength : Varint.value number % UInt64.size = e.stripped.encode.length := by
    rw [hvalue, Nat.mod_eq_of_lt (lt_trans he.length_lt (by decide))]
  obtain ⟨cause, r', hnext⟩ := Reader.next_numbered_torn hr hnumber hroom hlength
    (LogEntry.encode_ne_nil _) hk he.length_le he.length_lt
  refine ⟨cause, ?_⟩
  rw [ofSource, hopen]
  dsimp only
  rw [ofReader_of_error hnext]
  rfl

end Scan

namespace Host

/-- One entry behind a length in two bytes, of which one would do. -/
def overlongFile : Bytes :=
  magic ++ ([0x9F, 0] ++ ((LogEntry.sample 5).stripped.encode ++
    Checksum.trailer (LogEntry.sample 5).stripped.encode))

/-- The reconstruction cuts off the end of the checksum. -/
theorem overlongFile_not_read_again : ∃ seg after cause last,
    loadSegment ⟨"data", .strict, 64⟩ "log" (.opening 5) false (singleFile overlongFile) =
        .ok (some seg) after ∧
      loadSegment ⟨"data", .strict, 64⟩ "log" seg.range false after =
        .error (.error (.corruption cause)) last := by
  have htakes : Reader.Takes 64 (LogEntry.sample 5) := ⟨by decide, by decide⟩
  have hnumber : Varint.IsNumber [0x9F, 0] := by simp [Varint.IsNumber, Varint.isLast]
  have hvalue : Varint.value [0x9F, 0] = (LogEntry.sample 5).stripped.encode.length := by
    rw [LogEntry.length_encode]
    decide
  have hbody : ((LogEntry.sample 5).stripped.encode ++
      Checksum.trailer (LogEntry.sample 5).stripped.encode).length = 35 := by
    rw [List.length_append, Checksum.length_trailer, ← hvalue]
    decide
  have himage : (fileImage [.sample 5]).length = 44 := by
    rw [length_fileImage]
    decide
  have hfile := singleFile_hasFile overlongFile
  have hscan : (singleFile overlongFile).disk.scan "log" (.opening 5)
      (SegmentContext.mk "data" .strict 64).maxEntrySize =
        ⟨[LogEntry.sample 5].map (·.stripped), none⟩ := by
    rw [Disk.scan_of_find _ _ hfile.find]
    exact Scan.ofSource_numbered hnumber (by decide) hvalue htakes "log" rfl (by decide)
  have hlength : ((singleFile overlongFile).disk.content ⟨0⟩).length = 45 := by
    change (magic ++ ([0x9F, 0] ++ _)).length = 45
    rw [List.length_append, List.length_append, hbody]
    rfl
  obtain ⟨seg, after, hload, hholds, hstart, hopen, -, -, hdisk⟩ := loadSegment_of_scan (n := 1)
    (singleFile overlongFile) false (by decide) hscan (by decide) (by decide) (by decide) rfl hfile
    (by rw [himage, hlength]; decide) (fun _ => by rw [himage]; decide)
  have hleft : after.disk.HasFile "log" ⟨0⟩ := hdisk ▸ hfile.setContent _
  have hbytes : after.disk.content ⟨0⟩ = magic ++ ([0x9F, 0] ++
      ((LogEntry.sample 5).stripped.encode ++
        Checksum.trailer (LogEntry.sample 5).stripped.encode).take 34) := by
    rw [hdisk, Disk.content_setContent hfile.bound, himage]
    rfl
  have hrange : seg.range = .opening 5 := by
    rw [Segment.range, hopen, hstart]
    rfl
  obtain ⟨cause, htorn⟩ := Scan.ofSource_numbered_torn hnumber (by decide) hvalue htakes "log"
    (.opening 5) (k := 34) (by rw [hbody]; decide)
  have hagain : after.disk.scan "log" (.opening 5)
      (SegmentContext.mk "data" .strict 64).maxEntrySize =
        ⟨([] : List LogEntry).map (·.stripped), some (.error (.corruption cause))⟩ := by
    rw [Disk.scan_of_find _ _ hleft.find, hbytes, htorn]
    rfl
  obtain ⟨last, hrefused, -⟩ := loadSegment_of_refusal after false (by decide) hagain
    Consecutive.nil (by simp) rfl
  exact ⟨seg, after, cause, last, hload, by rw [hrange]; exact hrefused⟩

end Host

end SegmentedLog
