import SegmentedLog.File.Opened
import SegmentedLog.Proofs.Consecutive
import SegmentedLog.Proofs.Reading

/-! # What a scan makes of a file

Whole frames of consecutive entries are handed over one by one, stripped; what stands behind them
decides how the scan ends. Of any bytes at all, what a scan hands over is a run from the start of
the range, within the range, that takes no more space than there was.
-/

namespace SegmentedLog

namespace Scan

def expected (start : UInt64) : Option UInt64 → Nat
  | none => start.toNat
  | some previous => previous.toNat + 1

theorem checkOrder_eq_ok {path : String} {start index : UInt64} {previous : Option UInt64}
    (h : checkOrder path start previous index = .ok ()) :
    index.toNat = expected start previous := by
  cases previous with
  | none =>
    simp only [checkOrder] at h
    split at h
    · next hindex => rw [hindex, expected]
    · cases h
  | some previous =>
    simp only [checkOrder, nextIndex] at h
    by_cases hbound : previous.toNat + 1 < UInt64.size
    · simp only [hbound, if_true] at h
      split at h
      · next hindex =>
        rw [hindex, expected, UInt64.toNat_add]
        exact Nat.mod_eq_of_lt hbound
      · cases h
    · simp only [hbound, if_false] at h
      cases h

theorem checkOrder_of_expected {path : String} {start index : UInt64} {previous : Option UInt64}
    (h : index.toNat = expected start previous) :
    checkOrder path start previous index = .ok () := by
  cases previous with
  | none => exact if_pos (UInt64.toNat_inj.mp h)
  | some previous =>
    have hbound : previous.toNat + 1 < UInt64.size := by
      have hlt := index.toNat_lt
      rw [h] at hlt
      exact hlt
    have hindex : index = previous + 1 := by
      apply UInt64.toNat_inj.mp
      rw [h, UInt64.toNat_add]
      exact (Nat.mod_eq_of_lt hbound).symm
    unfold checkOrder nextIndex
    simp only [hbound, if_true, hindex]

variable {r r' : Reader} {range : SegmentRange} {limit : Nat} {rest : Bytes} {e : LogEntry}
  {previous : Option UInt64}

/-! ## One step -/

theorem ofReader_of_error {cause : Failure} (h : r.next = .error cause r') :
    ofReader previous r = failed cause := by
  rw [ofReader]
  split <;> simp_all

theorem ofReader_of_none (h : r.next = .ok none r') : ofReader previous r = complete := by
  rw [ofReader]
  split <;> simp_all

theorem ofReader_of_some (h : r.next = .ok (some e) r') :
    ofReader previous r =
      match checkOrder r.path r.range.start previous e.index with
      | .error cause => failed cause
      | .ok () => cons e (ofReader (some e.index) r') := by
  rw [ofReader]
  split
  · next heq => rw [h] at heq; cases heq
  · next heq => rw [h] at heq; cases heq
  · next heq =>
    rw [h] at heq
    cases heq
    rfl

theorem ofReader_of_done (h : r.done = true) : ofReader previous r = complete := by
  have hnext : r.next = .ok none r := by
    rw [Reader.next, Stepwise.get_bind, if_pos h]
    rfl
  exact ofReader_of_none hnext

/-! ## Whole frames -/

/-- Whether bytes yield an entry to a reader whose range it is not before, whatever follows them. -/
def Yielding (range : SegmentRange) (limit : Nat) (piece : Bytes × LogEntry) : Prop :=
  ∀ (r : Reader) (rest : Bytes), r.Awaits range limit (piece.1 ++ rest) →
    range.start ≤ piece.2.index →
    ∃ r', r.next = .ok (some piece.2) r' ∧ r'.Awaits range limit rest

/-- The entries of a run are handed over one by one, and the scan goes on behind them. -/
theorem ofReader_pieces (previous : Option UInt64) {pieces : List (Bytes × LogEntry)}
    (h : r.Awaits range limit (pieces.flatMap (·.1) ++ rest))
    (hpieces : ∀ piece ∈ pieces, Yielding range limit piece)
    (hindices : Consecutive (expected range.start previous) (pieces.map (·.2.index)))
    (hstart : range.start.toNat ≤ expected range.start previous) :
    ∃ previous' r', ofReader previous r =
        ⟨pieces.map (·.2) ++ (ofReader previous' r').entries,
          (ofReader previous' r').failure⟩ ∧
      expected range.start previous' = expected range.start previous + pieces.length ∧
      r'.Awaits range limit rest := by
  induction pieces generalizing previous r with
  | nil => exact ⟨previous, r, rfl, rfl, h⟩
  | cons piece pieces ih =>
    rw [List.flatMap_cons, List.append_assoc] at h
    rw [List.map_cons, Consecutive.cons_iff] at hindices
    rw [List.forall_mem_cons] at hpieces
    have hfirst : range.start ≤ piece.2.index := by
      rw [UInt64.le_iff_toNat_le, hindices.1]
      exact hstart
    obtain ⟨t, hnext, ht⟩ := hpieces.1 r _ h hfirst
    have hexpected : expected range.start (some piece.2.index) =
        expected range.start previous + 1 := by rw [← hindices.1, expected]
    obtain ⟨previous', r', hscan, hcount, hr'⟩ := ih (some piece.2.index) ht hpieces.2
      (by rw [hexpected]; exact hindices.2) (by omega)
    refine ⟨previous', r', ?_, ?_, hr'⟩
    · have horder : checkOrder r.path range.start previous piece.2.index = .ok () :=
        checkOrder_of_expected hindices.1
      rw [ofReader_of_some hnext, h.range, horder]
      change cons piece.2 (ofReader (some piece.2.index) t) = _
      rw [hscan]
      rfl
    · rw [hcount, hexpected, List.length_cons]
      omega

theorem ofReader_frames (previous : Option UInt64) {entries : List LogEntry}
    (h : r.Awaits range limit (entries.flatMap Frame.ofEntry ++ rest))
    (htakes : ∀ e ∈ entries, Reader.Takes limit e)
    (hindices : Consecutive (expected range.start previous) (entries.map (·.index)))
    (hstart : range.start.toNat ≤ expected range.start previous)
    (hlast : ∀ e ∈ entries, ¬ range.EndsBefore e.index) :
    ∃ previous' r', ofReader previous r =
        ⟨entries.map (·.stripped) ++ (ofReader previous' r').entries,
          (ofReader previous' r').failure⟩ ∧
      expected range.start previous' = expected range.start previous + entries.length ∧
      r'.Awaits range limit rest := by
  have hyielding : ∀ piece ∈ entries.map fun e => (Frame.ofEntry e, e.stripped),
      Yielding range limit piece := by
    rintro _ hpiece
    obtain ⟨e, he, rfl⟩ := List.mem_map.mp hpiece
    exact fun r rest h hfirst => Reader.next_admitted h (htakes e he) hfirst (hlast e he)
  have hbytes : r.Awaits range limit
      ((entries.map fun e => (Frame.ofEntry e, e.stripped)).flatMap (·.1) ++ rest) := by
    rwa [List.flatMap_map]
  have hpieces := ofReader_pieces previous hbytes hyielding (by rwa [List.map_map]) hstart
  rwa [List.map_map, List.length_map] at hpieces

section Image

variable {path : String} {entries : List LogEntry}
  (htakes : ∀ e ∈ entries, Reader.Takes limit e)
  (hindices : Consecutive range.start.toNat (entries.map (·.index)))
  (hlast : ∀ e ∈ entries, ¬ range.EndsBefore e.index)

include htakes hindices hlast

theorem ofSource_frames (path : String) (rest : Bytes) :
    ∃ previous r, ofSource path range limit { pending := fileImage entries ++ rest } =
        ⟨entries.map (·.stripped) ++ (ofReader previous r).entries,
          (ofReader previous r).failure⟩ ∧
      expected range.start previous = range.start.toNat + entries.length ∧
      r.Awaits range limit rest := by
  obtain ⟨r, hopen, hr⟩ :=
    Reader.openOn_magic path range limit (entries.flatMap Frame.ofEntry ++ rest)
  obtain ⟨previous, r', hscan, hcount, hr'⟩ :=
    ofReader_frames none hr htakes hindices le_rfl hlast
  refine ⟨previous, r', ?_, hcount, hr'⟩
  rw [fileImage, List.append_assoc, ofSource, hopen]
  exact hscan

theorem ofSource_zeros (path : String) (z : Nat) :
    ofSource path range limit { pending := fileImage entries ++ List.replicate z 0 } =
      ⟨entries.map (·.stripped), none⟩ := by
  obtain ⟨previous, r, hscan, -, hr⟩ := ofSource_frames htakes hindices hlast path
    (List.replicate z 0)
  obtain ⟨r', hnext⟩ := Reader.next_zeros hr
  rw [hscan, ofReader_of_none hnext]
  simp [complete]

/-- The first frame past the range ends the scan, whatever follows it. -/
theorem ofSource_past (path : String) (he : Reader.Takes limit e)
    (hindex : e.index.toNat = range.start.toNat + entries.length)
    (hpast : range.EndsBefore e.index) (rest : Bytes) :
    ofSource path range limit { pending := fileImage entries ++ (Frame.ofEntry e ++ rest) } =
      ⟨entries.map (·.stripped), none⟩ := by
  obtain ⟨previous, r, hscan, -, hr⟩ := ofSource_frames htakes hindices hlast path
    (Frame.ofEntry e ++ rest)
  have hstart : range.start ≤ e.index := by
    rw [UInt64.le_iff_toNat_le]
    omega
  obtain ⟨r', hnext⟩ := Reader.next_past hr he hstart hpast
  rw [hscan, ofReader_of_none hnext]
  simp [complete]

theorem ofSource_torn (path : String) (he : Reader.Takes limit e) {k : Nat} (hpos : 0 < k)
    (hk : k < (Frame.ofEntry e).length) :
    ∃ cause, ofSource path range limit
        { pending := fileImage entries ++ (Frame.ofEntry e).take k } =
      ⟨entries.map (·.stripped), some (.error (.corruption cause))⟩ := by
  obtain ⟨previous, r, hscan, -, hr⟩ := ofSource_frames htakes hindices hlast path
    ((Frame.ofEntry e).take k)
  obtain ⟨cause, r', hnext⟩ := Reader.next_ofEntry_torn hr he hpos hk
  refine ⟨cause, ?_⟩
  rw [hscan, ofReader_of_error hnext]
  simp [failed]

end Image

theorem ofSource_short (path : String) (range : SegmentRange) (limit : Nat) {bytes : Bytes}
    (h : bytes.length < headerSize) :
    ofSource path range limit { pending := bytes } = complete := by
  obtain ⟨r, hopen, hdone⟩ := Reader.openOn_short path range limit h
  rw [ofSource, hopen]
  exact ofReader_of_done hdone

/-! ## Whatever the bytes -/

/-- What a scan hands over is a run within the range, and there was room for it. -/
theorem ofReader_sound (previous : Option UInt64) (r : Reader) :
    Consecutive (expected r.range.start previous) ((ofReader previous r).entries.map (·.index)) ∧
      (∀ e ∈ (ofReader previous r).entries, ¬ r.range.EndsBefore e.index) ∧
      ((ofReader previous r).entries.map (·.footprint)).sum ≤ r.source.unread.length := by
  fun_induction ofReader previous r with
  | case1 => exact ⟨Consecutive.nil, by simp [failed], by simp [failed]⟩
  | case2 => exact ⟨Consecutive.nil, by simp [complete], by simp [complete]⟩
  | case3 => exact ⟨Consecutive.nil, by simp [failed], by simp [failed]⟩
  | case4 previous r e r' hnext _ horder ih =>
    obtain ⟨number, data, hyields⟩ := Reader.next_eq_some hnext
    rcases ih with ⟨hindices, hlast, hsum⟩
    have hroom := hyields.footprint_le
    rw [hyields.range] at hindices hlast
    refine ⟨?_, ?_, ?_⟩
    · refine Consecutive.cons_iff.mpr ⟨checkOrder_eq_ok horder, ?_⟩
      rwa [← checkOrder_eq_ok horder]
    · intro e' he'
      rcases List.mem_cons.mp he' with rfl | he'
      · exact hyields.last
      · exact hlast e' he'
    · rw [cons, List.map_cons, List.sum_cons]
      omega

theorem ofSource_sound (path : String) (range : SegmentRange) (limit : Nat) (source : Source) :
    Consecutive range.start.toNat
        ((ofSource path range limit source).entries.map (·.index)) ∧
      (∀ e ∈ (ofSource path range limit source).entries, ¬ range.EndsBefore e.index) ∧
      ((ofSource path range limit source).entries ≠ [] → headerSize +
        ((ofSource path range limit source).entries.map (·.footprint)).sum ≤
          source.unread.length) := by
  cases hopen : Reader.openOn path range limit source with
  | error cause =>
    rw [ofSource, hopen]
    exact ⟨Consecutive.nil, by simp [failed], by simp [failed]⟩
  | ok r =>
    have hscan : ofSource path range limit source = ofReader none r := by
      simp only [ofSource, hopen]
    rw [hscan]
    rcases Reader.openOn_eq_ok hopen with ⟨hrange, hdone | hmagic⟩
    · rw [ofReader_of_done hdone]
      exact ⟨Consecutive.nil, by simp [complete], by simp [complete]⟩
    · obtain ⟨hindices, hlast, hsum⟩ := ofReader_sound none r
      rw [hrange] at hindices hlast
      refine ⟨hindices, hlast, fun _ => ?_⟩
      rw [hmagic, List.length_append]
      exact Nat.add_le_add_left hsum headerSize

/-! ## Nothing but written frames -/

theorem ofReader_takes (previous : Option UInt64) (r : Reader) :
    ∀ e ∈ (ofReader previous r).entries, Reader.Takes r.maxEntrySize e := by
  fun_induction ofReader previous r with
  | case1 => simp [failed]
  | case2 => simp [complete]
  | case3 => simp [failed]
  | case4 previous r e r' hnext _ horder ih =>
    obtain ⟨number, data, hyields⟩ := Reader.next_eq_some hnext
    rw [hyields.maxEntrySize] at ih
    rw [cons, List.forall_mem_cons]
    exact ⟨hyields.takes, ih⟩

/-- Entries that are counted with all that was unread stood there as a writer lays them out. -/
theorem unread_of_sum (previous : Option UInt64) (r : Reader)
    (hplain : ∀ e ∈ (ofReader previous r).entries, e.hasStateData = false)
    (hsum : ((ofReader previous r).entries.map (·.footprint)).sum = r.source.unread.length) :
    r.source.unread = (ofReader previous r).entries.flatMap Frame.ofEntry := by
  fun_induction ofReader previous r with
  | case1 => exact List.length_eq_zero_iff.mp hsum.symm
  | case2 => exact List.length_eq_zero_iff.mp hsum.symm
  | case3 => exact List.length_eq_zero_iff.mp hsum.symm
  | case4 previous r e r' hnext _ horder ih =>
    obtain ⟨number, data, hyields⟩ := Reader.next_eq_some hnext
    rw [cons, List.forall_mem_cons] at hplain
    rw [cons, List.map_cons, List.sum_cons] at hsum
    have hroom := hyields.footprint_le
    have hrest := (ofReader_sound (some e.index) r').2.2
    rw [hyields.unread_of_footprint hplain.1 (by omega), ih hplain.2 (by omega), cons,
      List.flatMap_cons]

theorem ofSource_takes (path : String) (range : SegmentRange) (limit : Nat) (source : Source) :
    ∀ e ∈ (ofSource path range limit source).entries, Reader.Takes limit e := by
  cases hopen : Reader.openOn path range limit source with
  | error cause =>
    rw [ofSource, hopen]
    simp [failed]
  | ok r =>
    have hlimit : r.maxEntrySize = limit := Reader.maxEntrySize_of_openOn hopen
    rw [ofSource, hopen, ← hlimit]
    exact ofReader_takes none r

theorem unread_eq_fileImage (path : String) (range : SegmentRange) (limit : Nat) (source : Source)
    (hplain : ∀ e ∈ (ofSource path range limit source).entries, e.hasStateData = false)
    (hne : (ofSource path range limit source).entries ≠ [])
    (hsum : headerSize + ((ofSource path range limit source).entries.map (·.footprint)).sum =
      source.unread.length) :
    source.unread = fileImage (ofSource path range limit source).entries := by
  cases hopen : Reader.openOn path range limit source with
  | error cause =>
    rw [ofSource, hopen] at hne
    exact absurd rfl hne
  | ok r =>
    have hscan : ofSource path range limit source = ofReader none r := by
      simp only [ofSource, hopen]
    rw [hscan] at hplain hne hsum ⊢
    rcases (Reader.openOn_eq_ok hopen).2 with hdone | hmagic
    · rw [ofReader_of_done hdone] at hne
      exact absurd rfl hne
    · rw [hmagic, List.length_append] at hsum
      rw [hmagic, fileImage, ← unread_of_sum none r hplain (Nat.add_left_cancel hsum)]

/-! ## What a policy makes of a scan -/

variable {scan : Scan} {cause : SegmentError} {fault : Fault}

theorem settle_of_none (h : scan.failure = none) (policy : CorruptionPolicy) :
    scan.settle policy = .ok scan.entries.length := by
  simp only [settle, h]

theorem settle_strict (h : scan.failure = some (.error cause)) :
    scan.settle .strict = .error (.error cause) := by
  simp only [settle, h]

theorem settle_tolerant (h : scan.failure = some (.error cause)) :
    scan.settle .tolerant = .ok scan.entries.length := by
  simp only [settle, h]

theorem settle_of_fault (h : scan.failure = some (.fault fault)) (policy : CorruptionPolicy) :
    scan.settle policy = .error (.fault fault) := by
  simp only [settle, h]

end Scan

theorem Disk.scan_of_find {disk : Disk} {path : String} {id : FileId} (range : SegmentRange)
    (limit : Nat) (hfind : disk.find path = .ok (.file id)) :
    disk.scan path range limit =
      Scan.ofSource path range limit { pending := disk.content id } := by
  simp only [scan, hfind, source]

end SegmentedLog
