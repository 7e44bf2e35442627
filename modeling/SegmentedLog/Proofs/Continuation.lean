import SegmentedLog.Proofs.Durability
import SegmentedLog.Proofs.PartialScans

/-! # Entries written behind what a file holds

A writer goes on at the end of a file, and a reader stops at the end of its data. Entries that are
written are read if the two are the same: if the file is empty or nothing stands behind its last
entry. Behind zeros, in the place of the header or after the entries, none of them is read.
-/

namespace SegmentedLog

open Stepwise

theorem Varint.value_of_zeros {bytes : Bytes} (h : ∀ b ∈ bytes, b = 0) : value bytes = 0 := by
  induction bytes with
  | nil => rfl
  | cons b bytes ih =>
    obtain ⟨rfl, hrest⟩ := List.forall_mem_cons.mp h
    rw [value, ih hrest]
    rfl

/-- Frames are no padding: the length of an entry is not zero. -/
theorem exists_ne_zero_of_ne_nil {entries : List LogEntry} (h : entries ≠ []) :
    ∃ b ∈ entries.flatMap Frame.ofEntry, b ≠ 0 := by
  obtain ⟨e, rest, rfl⟩ := List.exists_cons_of_ne_nil h
  by_contra hzero
  push Not at hzero
  have hvalue : Varint.value (Varint.encode e.stripped.encode.length) = 0 :=
    Varint.value_of_zeros fun b hb =>
      hzero b (List.mem_append_left _ (List.mem_append_left _ hb))
  rw [Varint.value_encode] at hvalue
  exact LogEntry.encode_ne_nil _ (List.length_eq_zero_iff.mp hvalue)

/-- An open range has no end that an entry could be past. -/
theorem SegmentRange.not_endsBefore {range : SegmentRange} (hopen : range.isOpen = true)
    (index : UInt64) : ¬ range.EndsBefore index := fun hends =>
  Bool.noConfusion (hopen.symm.trans hends.1)

namespace Reader

variable {r r' : Reader} {range : SegmentRange} {limit : Nat} {number rest bytes data : Bytes}

/-- In an open range every entry is handed out, or refused. -/
theorem accept_ne_none (hopen : r.range.isOpen = true) : accept data r ≠ .ok none r' := by
  intro h
  rw [accept, get_bind] at h
  cases hdecode : LogEntry.decode data with
  | error cause =>
    simp only [hdecode] at h
    exact absurd h throw_ne_ok
  | ok e =>
    simp only [hdecode] at h
    split at h
    · exact absurd h corrupted_ne_ok
    · rw [if_neg (r.range.not_endsBefore hopen e.index)] at h
      cases h

theorem frame_ne_none {size : Nat} (hopen : r.range.isOpen = true) :
    frame size r ≠ .ok none r' := by
  intro h
  rw [frame, get_bind] at h
  split at h
  · exact absurd h corrupted_ne_ok
  · split at h
    · exact absurd h throw_ne_ok
    · obtain ⟨data?, t, hdata, hchecked⟩ := bind_eq_ok.mp h
      obtain ⟨s, -, rfl⟩ := input_eq_ok hdata
      cases data? with
      | none => exact absurd hchecked corrupted_ne_ok
      | some data =>
        obtain ⟨trailer?, t, htrailer, haccepted⟩ := bind_eq_ok.mp hchecked
        obtain ⟨s', -, rfl⟩ := input_eq_ok htrailer
        cases trailer? with
        | none => exact absurd haccepted corrupted_ne_ok
        | some trailer =>
          dsimp only at haccepted
          split at haccepted
          · exact accept_ne_none (r := { r with source := s' }) hopen haccepted
          · exact absurd haccepted corrupted_ne_ok

/-- A reader of an open range stops at the end of a file or at a zero. -/
theorem zero_of_next (h : r.Awaits range limit bytes) (hopen : range.isOpen = true)
    (hnext : next r = .ok none r') : bytes = [] ∨ ∃ number zeros, bytes = number ++ zeros ∧
      Varint.IsNumber number ∧ number.length ≤ Varint.maxSize ∧
        Varint.value number % UInt64.size = 0 := by
  rcases Source.number?_cases h.source with rfl | ⟨number, rest, rfl, hnumber, hroom⟩ |
    ⟨cause, s, hread⟩
  · exact .inl rfl
  · obtain ⟨s, hs, hread⟩ := next_of_number h hnumber hroom
    cases hvalue : Varint.value number % UInt64.size with
    | zero => exact .inr ⟨number, rest, rfl, hnumber, hroom, hvalue⟩
    | succ size =>
      rw [hvalue] at hread
      exact absurd (hread.symm.trans hnext) (frame_ne_none (h.range.symm ▸ hopen))
  · rw [next, get_bind, if_neg (by simp [h.active]), bind_of_error (input_of_error hread)] at hnext
    cases hnext

/-- Behind a zero nothing but zeros may come. -/
theorem next_of_dirty_padding (h : r.Awaits range limit (number ++ rest))
    (hnumber : Varint.IsNumber number) (hroom : number.length ≤ Varint.maxSize)
    (hvalue : Varint.value number % UInt64.size = 0) (hdirty : ∃ b ∈ rest, b ≠ 0) :
    ∃ cause r', next r = .error (.error (.corruption cause)) r' := by
  obtain ⟨s, hs, hnext⟩ := next_of_number h hnumber hroom
  rw [hvalue] at hnext
  rcases padding_cases (h.withSource hs) with hclean | ⟨cause, r', hpadding⟩
  · obtain ⟨b, hb, hne⟩ := hdirty
    exact absurd (hclean b hb) hne
  · exact ⟨cause, r', hnext.trans hpadding⟩

end Reader

/-! ## Files whose data goes up to their end -/

/-- Whether a file is the magic and portions that a scan of the range hands over the entries of,
and nothing else. -/
def Filled (range : SegmentRange) (limit : Nat) (content : Bytes) : Prop :=
  ∃ portions, Starts range limit content portions []

variable {range : SegmentRange} {limit : Nat} {content tail more : Bytes} {portions : List Portion}
  {entries written : List LogEntry} {path : String}

theorem Starts.append (h : Starts range limit content portions tail) (more : Bytes) :
    Starts range limit (content ++ more) portions (tail ++ more) := by
  refine ⟨?_, h.readable, h.consecutive, h.last⟩
  rw [h.content_eq]
  simp only [List.append_assoc]

namespace Scan

variable {r : Reader} {previous : Option UInt64}

theorem next_of_complete (h : ofReader previous r = ⟨[], none⟩) :
    ∃ r', r.next = .ok none r' := by
  cases hnext : r.next with
  | error cause r' =>
    rw [ofReader_of_error hnext] at h
    cases h
  | ok e? r' =>
    cases e? with
    | none => exact ⟨r', rfl⟩
    | some e =>
      rw [ofReader_of_some hnext] at h
      split at h <;> cases h

theorem ofSource_of_filled (h : Filled range limit content) (hopen : range.isOpen = true)
    (hscan : ofSource path range limit { pending := content } = ⟨entries, none⟩)
    (htakes : ∀ e ∈ written, Reader.Takes limit e)
    (hindices : Consecutive (range.start.toNat + entries.length) (written.map (·.index))) :
    ofSource path range limit { pending := content ++ written.flatMap Frame.ofEntry } =
      ⟨entries ++ written.map (·.stripped), none⟩ := by
  obtain ⟨portions, hstarts⟩ := h
  obtain ⟨previous, r, hfirst, -, hr⟩ := ofSource_starts path hstarts
  obtain ⟨t, hend⟩ := Reader.next_nil hr
  rw [hscan, ofReader_of_none hend, complete, List.append_nil] at hfirst
  obtain rfl : entries = portions.map (·.entry) := congrArg Scan.entries hfirst
  rw [List.length_map] at hindices
  obtain ⟨previous', r', hgrown, hexpected, hr'⟩ :=
    ofSource_starts path (hstarts.append (written.flatMap Frame.ofEntry))
  rw [← hexpected] at hindices
  rw [List.nil_append, ← List.append_nil (written.flatMap _)] at hr'
  obtain ⟨previous'', r'', hframes, -, hr''⟩ := ofReader_frames previous' hr' htakes hindices
    (by omega) fun e _ => range.not_endsBefore hopen e.index
  obtain ⟨t', hend'⟩ := Reader.next_nil hr''
  rw [hgrown, hframes, ofReader_of_none hend']
  simp [complete]

theorem ofSource_blank (path : String) (range : SegmentRange) (limit : Nat) (rest : Bytes) :
    ofSource path range limit { pending := List.replicate headerSize 0 ++ rest } = ⟨[], none⟩ := by
  obtain ⟨r, hopen, hdone⟩ := Reader.openOn_blank path range limit rest
  rw [ofSource, hopen]
  exact ofReader_of_done hdone

/-- What is put behind zeros is not read: a file with zeros in the place of its header is read as
before, and behind other zeros it is malformed. -/
theorem filled_or_unread (hopen : range.isOpen = true) (hheader : headerSize ≤ content.length)
    (hscan : ofSource path range limit { pending := content } = ⟨entries, none⟩)
    (hmore : ∃ b ∈ more, b ≠ 0) : Filled range limit content ∨
      (∃ rest, content = List.replicate headerSize 0 ++ rest) ∧
        ofSource path range limit { pending := content ++ more } = ⟨entries, none⟩ ∨
      ∃ cause, ofSource path range limit { pending := content ++ more } =
        ⟨entries, some (.error (.corruption cause))⟩ := by
  rcases Reader.openOn_cases path range limit content with hshort | ⟨rest, rfl⟩ | ⟨body, rfl⟩ |
    ⟨cause, hforeign⟩
  · omega
  · rw [ofSource_blank] at hscan
    rw [List.append_assoc, ofSource_blank]
    exact .inr (.inl ⟨⟨rest, rfl⟩, hscan⟩)
  · obtain ⟨portions, tail, hstarts, hentries, previous, r, hr, hstops⟩ :=
      starts_of_magic path range limit body
    rw [hscan] at hentries hstops
    obtain ⟨r', hnext⟩ := next_of_complete hstops
    rcases Reader.zero_of_next hr hopen hnext with
      rfl | ⟨number, zeros, rfl, hnumber, hroom, hvalue⟩
    · exact .inl ⟨portions, hstarts⟩
    · obtain ⟨previous', t, hgrown, -, ht⟩ := ofSource_starts path (hstarts.append more)
      rw [List.append_assoc] at ht
      obtain ⟨b, hb, hne⟩ := hmore
      obtain ⟨cause, t', hfail⟩ := Reader.next_of_dirty_padding ht hnumber hroom hvalue
        ⟨b, List.mem_append_right _ hb, hne⟩
      refine .inr (.inr ⟨cause, ?_⟩)
      rw [hgrown, ofReader_of_error hfail, hentries, failed, List.append_nil]
  · rw [ofSource, hforeign] at hscan
    cases hscan

end Scan

/-! ## Writers of files that are there -/

namespace Writer

variable {disk opened : Disk} {id : FileId} {sync : SyncPolicy} {w : Writer} {start : UInt64}

def flushed (uses : List Use) (x : Writer × Disk) : Disk := (flush (run uses x)).2.2

/-- A writer of a file that is there goes on behind the magic, which it writes if the file is
empty. -/
theorem parts_of_file (hfile : disk.HasFile path id)
    (hopen : openOn path sync disk = .ok w opened) :
    headerSize ≤ (ground path disk).length ∧ Parts disk id (ground path disk) [] (w, opened) := by
  have hcarries : headerSize ≤ (ground path disk).length ∧
      Carries disk id (ground path disk) (w, opened) := by
    by_cases hempty : disk.content id = []
    · rw [ground_of_blank (.inl (Disk.read_eq_ok.mpr ⟨id, hfile.find, hempty⟩))]
      unfold openOn at hopen
      simp only [Disk.openOrCreate_of_file hfile.find, hempty] at hopen
      cases hopen
      exact ⟨le_rfl, hfile.bound, rfl, le_rfl, rfl, rfl⟩
    · rw [ground_of_file hfile hempty]
      by_cases hheader : headerSize ≤ (disk.content id).length
      · obtain ⟨w', hopen', -, hcarries⟩ := openOn_of_file hfile hheader sync
        cases hopen.symm.trans hopen'
        exact ⟨hheader, hcarries⟩
      · unfold openOn at hopen
        simp only [Disk.openOrCreate_of_file hfile.find] at hopen
        rw [if_neg (by simpa using hempty), if_pos (not_le.mp hheader)] at hopen
        cases hopen
  obtain ⟨-, -, -, hposition, hbuffered⟩ := openOn_fresh hopen
  rw [← List.append_nil (ground path disk)] at hcarries
  exact ⟨by simpa using hcarries.1, .of_empty hcarries.2 hbuffered
    (hposition.trans (hcarries.2.offset_of_empty hbuffered))⟩

theorem flushed_eq (hfile : disk.HasFile path id) (hopen : openOn path sync disk = .ok w opened)
    (uses : List Use) : flushed uses (w, opened) = disk.setContent id
      (ground path disk ++ (uses.filterMap Use.entry?).flatMap Frame.ofEntry) :=
  ((parts_of_file hfile hopen).2.run uses).carries.disk_flush

/-- With a magic in place of no bytes a file is scanned like before. -/
theorem scan_ground (hfile : disk.HasFile path id) (range : SegmentRange) (limit : Nat) :
    Scan.ofSource path range limit { pending := ground path disk } =
      disk.scan path range limit := by
  rw [Disk.scan_of_find range limit hfile.find]
  by_cases hempty : disk.content id = []
  · rw [ground_of_blank (.inl (Disk.read_eq_ok.mpr ⟨id, hfile.find, hempty⟩)), hempty,
      Scan.ofSource_short path range limit (by decide : ([] : Bytes).length < headerSize)]
    obtain ⟨r, hopen, hr⟩ := Reader.openOn_magic path range limit []
    obtain ⟨r', hend⟩ := Reader.next_nil hr
    rw [List.append_nil] at hopen
    rw [Scan.ofSource, hopen]
    exact Scan.ofReader_of_none hend
  · rw [ground_of_file hfile hempty]

/-- What is written to a file that is there and read without a failure is read behind what it held
exactly if the writer goes on right behind the data. Otherwise nothing of it is read: without a
failure if the header is zeroed, and else because the file is malformed then. -/
theorem written_read_iff (hfile : disk.HasFile path id)
    (hopen : openOn path sync disk = .ok w opened)
    (hscan : disk.scan path (.opening start) limit = ⟨entries, none⟩) (uses : List Use)
    (hwritten : uses.filterMap Use.entry? = written)
    (hindices : Consecutive (start.toNat + entries.length) (written.map (·.index)))
    (hlimit : ∀ e ∈ written, e.stripped.encodedSize ≤ limit)
    (hfits : (fileImage written).length < Disk.lengthLimit) :
    ((flushed uses (w, opened)).scan path (.opening start) limit =
        ⟨entries ++ written.map (·.stripped), none⟩ ↔
      written = [] ∨ Filled (.opening start) limit (ground path disk)) ∧
    (written ≠ [] → ¬ Filled (.opening start) limit (ground path disk) →
      (∃ rest, ground path disk = List.replicate headerSize 0 ++ rest) ∧
        (flushed uses (w, opened)).scan path (.opening start) limit = ⟨entries, none⟩ ∨
      ∃ cause, (flushed uses (w, opened)).scan path (.opening start) limit =
        ⟨entries, some (.error (.corruption cause))⟩) := by
  have hafter : (flushed uses (w, opened)).scan path (.opening start) limit =
      Scan.ofSource path (.opening start) limit
        { pending := ground path disk ++ written.flatMap Frame.ofEntry } := by
    rw [flushed_eq hfile hopen, hwritten, Disk.scan_of_find _ _ (hfile.setContent _).find,
      Disk.content_setContent hfile.bound]
  rw [← scan_ground hfile] at hscan
  rw [hafter]
  have hunread (hne : written ≠ []) := Scan.filled_or_unread rfl (parts_of_file hfile hopen).1
    hscan (exists_ne_zero_of_ne_nil hne)
  refine ⟨⟨fun hread => ?_, ?_⟩, fun hne hfilled => (hunread hne).resolve_left hfilled⟩
  · by_cases hne : written = []
    · exact .inl hne
    rcases hunread hne with hfilled | ⟨-, hsame⟩ | ⟨cause, hfail⟩
    · exact .inr hfilled
    · have hentries := congrArg Scan.entries (hread.symm.trans hsame)
      exact .inl (List.map_eq_nil_iff.mp (List.append_right_eq_self.mp hentries))
    · cases congrArg Scan.failure (hread.symm.trans hfail)
  · rintro (rfl | hfilled)
    · rw [List.flatMap_nil, List.append_nil, hscan, List.map_nil, List.append_nil]
    · exact Scan.ofSource_of_filled hfilled rfl hscan (Host.takes_of_fits hlimit hfits) hindices

def zeroedFile : Disk := (Host.singleFile (List.replicate headerSize 0)).disk

/-- The file is read without a failure and a writer goes on behind it, but what is written is not
read, and there is still no failure. -/
theorem zeroedFile_loses_entry : ∃ w opened, openOn "log" .everyWrite zeroedFile = .ok w opened ∧
    zeroedFile.scan "log" (.opening 5) 64 = ⟨[], none⟩ ∧
    (flushed [.write (.sample 5)] (w, opened)).scan "log" (.opening 5) 64 = ⟨[], none⟩ := by
  have hfile : zeroedFile.HasFile "log" ⟨0⟩ := Host.singleFile_hasFile _
  obtain ⟨w, opened, hopen⟩ : ∃ w opened, openOn "log" .everyWrite zeroedFile = .ok w opened :=
    ⟨_, _, rfl⟩
  have hground : ground "log" zeroedFile = List.replicate headerSize 0 := rfl
  refine ⟨w, opened, hopen, ?_, ?_⟩
  · rw [← scan_ground hfile, hground, ← List.append_nil (List.replicate _ _), Scan.ofSource_blank]
  · rw [flushed_eq hfile hopen, hground, Disk.scan_of_find _ _ (hfile.setContent _).find,
      Disk.content_setContent hfile.bound, Scan.ofSource_blank]

/-- The length of the entry that is there takes a byte more than necessary. -/
theorem overlongFile_goes_on : ∃ w opened,
    openOn "log" .everyWrite (Host.singleFile Host.overlongFile).disk = .ok w opened ∧
    (flushed [.write (.sample 6), .flush, .write (.sample 7)] (w, opened)).scan "log" (.opening 5)
      64 = ⟨[LogEntry.sample 5, .sample 6, .sample 7].map (·.stripped), none⟩ := by
  have hfile := Host.singleFile_hasFile Host.overlongFile
  have htakes : Reader.Takes 64 (.sample 5) := ⟨by decide, by decide⟩
  have hnumber : Varint.IsNumber [0x9F, 0] := by simp [Varint.IsNumber, Varint.isLast]
  have hvalue : Varint.value [0x9F, 0] = (LogEntry.sample 5).stripped.encode.length := by
    rw [LogEntry.length_encode]
    decide
  obtain ⟨w, opened, hopen⟩ : ∃ w opened,
      openOn "log" .everyWrite (Host.singleFile Host.overlongFile).disk = .ok w opened :=
    ⟨_, _, rfl⟩
  have hscan : (Host.singleFile Host.overlongFile).disk.scan "log" (.opening 5) 64 =
      ⟨[(LogEntry.sample 5).stripped], none⟩ := by
    rw [Disk.scan_of_find _ _ hfile.find]
    exact Scan.ofSource_numbered hnumber (by decide) hvalue htakes "log" rfl (by decide)
  have hfilled : Filled (.opening 5) 64
      (ground "log" (Host.singleFile Host.overlongFile).disk) := by
    refine ⟨[⟨[0x9F, 0], (LogEntry.sample 5).stripped.encode, (LogEntry.sample 5).stripped⟩],
      ?_, List.forall_mem_singleton.mpr ⟨hnumber, by decide, ?_, LogEntry.encode_ne_nil _,
        htakes.length_le, htakes.length_lt, htakes.decode⟩,
      Consecutive.cons_iff.mpr ⟨rfl, .nil⟩, List.forall_mem_singleton.mpr (by decide)⟩
    · rw [List.append_nil, List.flatMap_singleton]
      rfl
    · rw [← hvalue]
      decide
  exact ⟨w, opened, hopen, (written_read_iff hfile hopen hscan _ rfl (by decide) (by decide)
    (by rw [length_fileImage]; decide)).1.mpr (.inr hfilled)⟩

end Writer

end SegmentedLog
