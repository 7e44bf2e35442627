import SegmentedLog.Proofs.Grammar
import SegmentedLog.Proofs.Rereading

/-! # Which files a scan accepts

A scan hands over the entries of the frames a file starts with, for as long as these go on. It ends
without a failure exactly if an ending stands behind them, so that the file is a segment file of
what was handed over. Otherwise what follows is malformed, or a frame behind the largest index.
-/

namespace SegmentedLog

namespace Reader

/-! ## Headers -/

theorem openOn_blank (path : String) (range : SegmentRange) (limit : Nat) (rest : Bytes) :
    ∃ r, openOn path range limit { pending := List.replicate headerSize 0 ++ rest } = .ok r ∧
      r.done = true := by
  obtain ⟨s, htake, -⟩ :=
    Source.take?_append (Source.has_pending (List.replicate headerSize 0 ++ rest))
  rw [List.length_replicate] at htake
  refine ⟨{ path, range, maxEntrySize := limit, source := s, done := true }, ?_, rfl⟩
  simp only [openOn, htake]
  rfl

theorem openOn_cases (path : String) (range : SegmentRange) (limit : Nat) (content : Bytes) :
    content.length < headerSize ∨ (∃ rest, content = List.replicate headerSize 0 ++ rest) ∨
      (∃ body, content = magic ++ body) ∨
      ∃ cause, openOn path range limit { pending := content } =
        .error (.error (.corruption cause)) := by
  by_cases hshort : content.length < headerSize
  · exact .inl hshort
  obtain ⟨header, rest, rfl, hlength⟩ : ∃ header rest, content = header ++ rest ∧
      header.length = headerSize :=
    ⟨_, _, (List.take_append_drop headerSize content).symm,
      List.length_take_of_le (not_lt.mp hshort)⟩
  obtain ⟨s, htake, -⟩ := Source.take?_append (Source.has_pending (header ++ rest))
  rw [hlength] at htake
  by_cases hzero : header.all (· = 0) = true
  · have hblank : header = List.replicate headerSize 0 :=
      List.eq_replicate_iff.mpr ⟨hlength, by simpa using hzero⟩
    exact .inr (.inl ⟨rest, by rw [hblank]⟩)
  by_cases hmagic : header = magic
  · exact .inr (.inr (.inl ⟨rest, by rw [hmagic]⟩))
  · refine .inr (.inr (.inr ⟨.foreignHeader path header, ?_⟩))
    simp only [openOn, htake]
    rw [if_neg hzero, if_neg hmagic]

end Reader

namespace Scan

variable {r : Reader} {range : SegmentRange} {limit : Nat} {bytes content tail : Bytes}
  {entries more : List LogEntry} {path : String}

/-! ## What the grammar makes a scan do -/

/-- The entries of frames are handed over one by one, and the scan goes on behind them. -/
theorem ofReader_of_frames (previous : Option UInt64) (h : r.Awaits range limit bytes)
    (hlimit : limit < Reader.capacityLimit)
    (hframes : Frames range limit (expected range.start previous) bytes entries tail)
    (hstart : range.start.toNat ≤ expected range.start previous) :
    ∃ previous' r', ofReader previous r =
        ⟨entries ++ (ofReader previous' r').entries, (ofReader previous' r').failure⟩ ∧
      r'.Awaits range limit tail := by
  generalize hindex : expected range.start previous = index at hframes
  induction hframes generalizing previous r with
  | nil => exact ⟨previous, r, rfl, h⟩
  | @cons index frame rest tail e entries hframed hnumber hlast hframes ih =>
    have hfirst : range.start ≤ e.index := by
      rw [UInt64.le_iff_toNat_le, hnumber, ← hindex]
      exact hstart
    obtain ⟨t, hnext, ht⟩ := Reader.next_of_admitted h hframed hlimit hfirst hlast
    have hexpected : expected range.start (some e.index) = index + 1 := by rw [expected, hnumber]
    obtain ⟨previous', r', hscan, hr'⟩ := ih (some e.index) ht (by omega) hexpected
    refine ⟨previous', r', ?_, hr'⟩
    have horder : checkOrder r.path range.start previous e.index = .ok () :=
      checkOrder_of_expected (hnumber.trans hindex.symm)
    rw [ofReader_of_some hnext, h.range, horder]
    change cons e (ofReader (some e.index) t) = _
    rw [hscan]
    rfl

theorem ofSource_of_begins (path : String) (hlimit : limit < Reader.capacityLimit)
    (h : Begins range limit content entries) :
    entries <+: (ofSource path range limit { pending := content }).entries := by
  obtain ⟨body, tail, rfl, hframes⟩ := h
  obtain ⟨r, hopen, hr⟩ := Reader.openOn_magic path range limit body
  obtain ⟨previous, r', hscan, -⟩ := ofReader_of_frames none hr hlimit hframes le_rfl
  rw [ofSource, hopen]
  dsimp only
  rw [hscan]
  exact List.prefix_append _ _

theorem ofSource_of_segmentFile (path : String) (hlimit : limit < Reader.capacityLimit)
    (h : SegmentFile range limit content entries) :
    ofSource path range limit { pending := content } = ⟨entries, none⟩ := by
  cases h with
  | short hlength => exact ofSource_short path range limit hlength
  | blank rest =>
    obtain ⟨r, hopen, hdone⟩ := Reader.openOn_blank path range limit rest
    rw [ofSource, hopen]
    exact ofReader_of_done hdone
  | @written body tail entries hframes hending =>
    obtain ⟨r, hopen, hr⟩ := Reader.openOn_magic path range limit body
    obtain ⟨previous, r', hscan, hr'⟩ := ofReader_of_frames none hr hlimit hframes le_rfl
    obtain ⟨t, hend⟩ := Reader.next_of_ending hr' hending hlimit
    rw [ofSource, hopen]
    dsimp only
    rw [hscan, ofReader_of_none hend]
    simp [complete]

/-! ## What a scan tells about a file -/

/-- How a scan stops that would go on with an entry of `index`, from what stands there. -/
def Stops (range : SegmentRange) (limit index : Nat) (tail : Bytes) : Option Failure → Prop
  | none => Ending range limit tail
  | some (.error cause) => cause.IsMalformed
  | some (.fault _) =>
    index = UInt64.size ∧ ∃ frame e rest, tail = frame ++ rest ∧ Framed limit e frame

theorem checkOrder_eq_error {start index : UInt64} {previous : Option UInt64} {failure : Failure}
    (h : checkOrder path start previous index = .error failure) :
    (∃ cause, failure = .error (.corruption cause)) ∨
      (∃ fault, failure = .fault fault) ∧ expected start previous = UInt64.size := by
  cases previous with
  | none =>
    simp only [checkOrder] at h
    split at h <;> cases h
    exact .inl ⟨_, rfl⟩
  | some previous =>
    have hlt := previous.toNat_lt
    simp only [checkOrder, nextIndex] at h
    by_cases hbound : previous.toNat + 1 < UInt64.size
    · simp only [hbound, if_true] at h
      split at h <;> cases h
      exact .inl ⟨_, rfl⟩
    · simp only [hbound, if_false] at h
      cases h
      exact .inr ⟨⟨_, rfl⟩, le_antisymm hlt (not_lt.mp hbound)⟩

/-- The entries handed over had their frames there, and what stood behind these stopped the scan. -/
theorem ofReader_reads (previous : Option UInt64) (r : Reader) (bytes : Bytes)
    (h : r.Awaits range limit bytes) (hlimit : limit < Reader.capacityLimit) :
    ∃ tail, Frames range limit (expected range.start previous) bytes (ofReader previous r).entries
        tail ∧
      Stops range limit (expected range.start previous + (ofReader previous r).entries.length) tail
        (ofReader previous r).failure := by
  fun_induction ofReader previous r generalizing bytes with
  | case1 previous r failure r' hnext =>
    obtain ⟨cause, rfl, hcause⟩ := Reader.malformed_of_next h hlimit hnext
    exact ⟨bytes, .nil, hcause⟩
  | case2 previous r r' hnext => exact ⟨bytes, .nil, Reader.ending_of_next h hlimit hnext⟩
  | case3 previous r e r' hnext _ failure horder =>
    obtain ⟨frame, rest, rfl, hframed, -, -⟩ := Reader.framed_of_next h hlimit hnext
    refine ⟨frame ++ rest, .nil, ?_⟩
    rw [h.range] at horder
    rcases checkOrder_eq_error horder with ⟨cause, rfl⟩ | ⟨⟨fault, rfl⟩, hfull⟩
    · exact trivial
    · exact ⟨hfull, frame, e, rest, rfl, hframed⟩
  | case4 previous r e r' hnext _ horder ih =>
    obtain ⟨frame, rest, rfl, hframed, hlast, hr'⟩ := Reader.framed_of_next h hlimit hnext
    obtain ⟨tail, hframes, hstops⟩ := ih rest hr'
    rw [h.range] at horder
    have hindex := checkOrder_eq_ok horder
    have hexpected : expected range.start (some e.index) =
        expected range.start previous + 1 := by rw [expected, hindex]
    rw [hexpected] at hframes hstops
    refine ⟨tail, .cons hframed hindex hlast hframes, ?_⟩
    rw [cons, List.length_cons, Nat.add_comm _ 1, ← Nat.add_assoc]
    exact hstops

theorem ofSource_cases (path : String) (range : SegmentRange) (content : Bytes)
    (hlimit : limit < Reader.capacityLimit) :
    let scan := ofSource path range limit { pending := content }
    (scan.failure = none ∧ SegmentFile range limit content scan.entries) ∨
      (scan.entries ≠ [] → Begins range limit content scan.entries) ∧
        ((∃ cause, scan.failure = some (.error cause) ∧ cause.IsMalformed) ∨
          (∃ fault, scan.failure = some (.fault fault)) ∧ Overruns range limit content) := by
  intro scan
  rcases Reader.openOn_cases path range limit content with hshort | ⟨rest, rfl⟩ | ⟨body, rfl⟩ |
    ⟨cause, hforeign⟩
  · have hfile : SegmentFile range limit content [] := .short hshort
    have hscan : scan = ⟨[], none⟩ := ofSource_of_segmentFile path hlimit hfile
    rw [hscan]
    exact .inl ⟨rfl, hfile⟩
  · have hfile : SegmentFile range limit (List.replicate headerSize 0 ++ rest) [] := .blank rest
    have hscan : scan = ⟨[], none⟩ := ofSource_of_segmentFile path hlimit hfile
    rw [hscan]
    exact .inl ⟨rfl, hfile⟩
  · obtain ⟨r, hopen, hr⟩ := Reader.openOn_magic path range limit body
    have hscan : scan = ofReader none r := by
      change ofSource _ _ _ _ = _
      rw [ofSource, hopen]
    obtain ⟨tail, hframes, hstops⟩ := ofReader_reads none r body hr hlimit
    rw [← hscan] at hframes hstops
    cases hfailure : scan.failure with
    | none =>
      rw [hfailure] at hstops
      exact .inl ⟨rfl, .written hframes hstops⟩
    | some failure =>
      rw [hfailure] at hstops
      refine .inr ⟨fun _ => ⟨body, tail, rfl, hframes⟩, ?_⟩
      cases failure with
      | error cause => exact .inl ⟨cause, rfl, hstops⟩
      | fault fault =>
        obtain ⟨hfull, frame, e, rest, rfl, hframed⟩ := hstops
        exact .inr ⟨⟨fault, rfl⟩, hframes.overruns hfull hframed⟩
  · have hscan : scan = failed (.error (.corruption cause)) := by
      change ofSource _ _ _ _ = _
      rw [ofSource, hforeign]
    rw [hscan]
    exact .inr ⟨fun hne => absurd rfl hne, .inl ⟨_, rfl, trivial⟩⟩

/-- However it ends, a scan hands over the longest run. -/
theorem ofSource_longestRun (path : String) (range : SegmentRange) (content : Bytes)
    (hlimit : limit < Reader.capacityLimit) :
    LongestRun range limit content (ofSource path range limit { pending := content }).entries where
  begins := by
    rcases ofSource_cases path range content hlimit with ⟨-, hfile⟩ | ⟨hbegins, -⟩
    · exact hfile.begins
    · exact hbegins
  longest _ := ofSource_of_begins path hlimit

end Scan

variable {disk : Disk} {path : String} {id : FileId} {limit : Nat}

/-- A scan under the strict policy succeeds with some entries exactly if the file is a segment file
of these. Of any other file it reads the longest run and reports what is malformed. -/
theorem Disk.scan_accepts_iff (range : SegmentRange) (hfind : disk.find path = .ok (.file id))
    (hlimit : limit < Reader.capacityLimit) :
    (∀ entries, (disk.scan path range limit).settle .strict = .ok entries.length ∧
        (disk.scan path range limit).entries = entries ↔
      SegmentFile range limit (disk.content id) entries) ∧
    (¬ Overruns range limit (disk.content id) →
      (∀ entries, ¬ SegmentFile range limit (disk.content id) entries) →
      ∃ cause, (disk.scan path range limit).settle .strict = .error (.error cause) ∧
        cause.IsMalformed ∧
        LongestRun range limit (disk.content id) (disk.scan path range limit).entries) := by
  have hcases := Scan.ofSource_cases path range (disk.content id) hlimit
  rw [scan_of_find range limit hfind]
  dsimp only at hcases
  constructor
  · intro entries
    constructor
    · rintro ⟨hsettle, rfl⟩
      rcases hcases with ⟨-, hfile⟩ | ⟨-, ⟨cause, hfailure, -⟩ | ⟨⟨fault, hfailure⟩, -⟩⟩
      · exact hfile
      · cases (Scan.settle_strict hfailure).symm.trans hsettle
      · cases (Scan.settle_of_fault hfailure .strict).symm.trans hsettle
    · intro hfile
      rw [Scan.ofSource_of_segmentFile path hlimit hfile]
      exact ⟨rfl, rfl⟩
  · intro hroom hnone
    rcases hcases with ⟨-, hfile⟩ | ⟨-, ⟨cause, hfailure, hcause⟩ | ⟨-, hoverruns⟩⟩
    · exact absurd hfile (hnone _)
    · exact ⟨cause, Scan.settle_strict hfailure, hcause,
        Scan.ofSource_longestRun path range _ hlimit⟩
    · exact absurd hoverruns hroom

/-- The length of the first entry takes a byte more than necessary, the second entry lies past a
range that ends with the first, and a byte is left over. -/
def oddFile : Disk :=
  (Host.singleFile (Host.overlongFile ++ (Frame.ofEntry (.sample 6) ++ [7]))).disk

def foreignFile : Disk := (Host.singleFile (List.replicate headerSize 1)).disk

theorem scan_accepts_oddFile :
    ((oddFile.scan "log" (.closed 5 5) 64).settle .strict = .ok 1 ∧
      (oddFile.scan "log" (.closed 5 5) 64).entries = [(LogEntry.sample 5).stripped]) ∧
    ∃ cause, (foreignFile.scan "log" (.opening 5) 64).settle .strict = .error (.error cause) ∧
      cause.IsMalformed ∧ LongestRun (.opening 5) 64 (List.replicate headerSize 1)
        (foreignFile.scan "log" (.opening 5) 64).entries := by
  have hlimit : 64 < Reader.capacityLimit := by decide
  constructor
  · have h5 : Reader.Takes 64 (.sample 5) := ⟨by decide, by decide⟩
    have h6 : Reader.Takes 64 (.sample 6) := ⟨by decide, by decide⟩
    have hnumber : Varint.IsNumber [0x9F, 0] := by simp [Varint.IsNumber, Varint.isLast]
    have hvalue : Varint.value [0x9F, 0] % UInt64.size =
        (LogEntry.sample 5).stripped.encode.length := by
      rw [LogEntry.length_encode]
      decide
    have hframed := Framed.intro hnumber (by decide) hvalue (LogEntry.encode_ne_nil _)
      h5.length_le h5.decode
    have hending : Ending (.closed 5 5) 64 (Frame.ofEntry (.sample 6) ++ [7]) :=
      .past [7] h6.framed (by decide) (by decide)
    have hfile := SegmentFile.written (.cons hframed rfl (by decide) .nil) hending
    exact ((Disk.scan_accepts_iff (.closed 5 5) (Host.singleFile_hasFile _).find hlimit).1 _).mpr
      hfile
  · have hforeign (body : Bytes) : List.replicate headerSize 1 ≠ magic ++ body := by
      intro h
      cases congrArg List.head? h
    refine (Disk.scan_accepts_iff (.opening 5) (Host.singleFile_hasFile _).find hlimit).2 ?_ ?_
    · rintro ⟨body, _, _, _, _, _, hcontent, -⟩
      exact hforeign body hcontent
    · intro entries hfile
      change SegmentFile _ _ (List.replicate headerSize (1 : UInt8)) entries at hfile
      generalize hcontent : List.replicate headerSize (1 : UInt8) = content at hfile
      cases hfile with
      | short hlength =>
        rw [← hcontent] at hlength
        exact absurd hlength (by decide)
      | blank rest => cases congrArg List.head? hcontent
      | written => exact hforeign _ hcontent

end SegmentedLog
