import SegmentedLog.Proofs.EntryCodec
import SegmentedLog.Proofs.Input

/-! # What a reader makes of the bytes before it

A whole frame yields its entry, or the end of the data if the entry lies past the range; a frame
that breaks off is corruption, wherever the cut is; nothing and zeros are the end of the data.
Conversely, an entry that was read stood in a frame at the front of the unread bytes.
-/

namespace SegmentedLog

open Stepwise

theorem frameSize_mono {m n : Nat} (h : m ≤ n) : frameSize m ≤ frameSize n := by
  have hsize := Varint.size_mono h
  simp only [frameSize]
  omega

theorem Checksum.decode_trailer (data : Bytes) :
    UInt32.ofNat (LittleEndian.decode (Checksum.trailer data)) = Checksum.crc32 data := by
  rw [Checksum.trailer, LittleEndian.decode_encode]
  exact (congrArg UInt32.ofNat (Nat.mod_eq_of_lt (Checksum.crc32 data).toNat_lt)).trans
    UInt32.ofNat_toNat

theorem Checksum.length_trailer (data : Bytes) : (Checksum.trailer data).length = Checksum.size :=
  LittleEndian.length_encode _ _

namespace Reader

structure Awaits (r : Reader) (range : SegmentRange) (maxEntrySize : Nat) (bytes : Bytes) :
    Prop where
  active : r.done = false
  range : r.range = range
  limit : r.maxEntrySize = maxEntrySize
  source : r.source.Has bytes

variable {r r' : Reader} {range : SegmentRange} {limit : Nat} {bytes rest data : Bytes}
  {e : LogEntry}

theorem input_of_ok {α : Type} {read : Source.Reading α} {a : α} {s : Source}
    (h : read r.source = .ok a s) : input read r = .ok a { r with source := s } := by
  simp only [input, h]

theorem input_of_error {α : Type} {read : Source.Reading α} {cause : Failure} {s : Source}
    (h : read r.source = .error cause s) :
    input read r = .error cause { r with source := s } := by
  simp only [input, h]

theorem Awaits.withSource {s : Source} (h : r.Awaits range limit bytes) (hs : s.Has rest) :
    { r with source := s }.Awaits range limit rest :=
  ⟨h.active, h.range, h.limit, hs⟩

/-! ## The header -/

theorem openOn_magic (path : String) (range : SegmentRange) (limit : Nat) (rest : Bytes) :
    ∃ r, openOn path range limit { pending := magic ++ rest } = .ok r ∧
      r.Awaits range limit rest := by
  obtain ⟨s, htake, hs⟩ := Source.take?_append (Source.has_pending (magic ++ rest))
  refine ⟨{ path, range, maxEntrySize := limit, source := s }, ?_, rfl, rfl, rfl, hs⟩
  change Source.take? headerSize _ = _ at htake
  simp only [openOn, htake]
  rfl

/-- A file too short for a header is at its end from the start. -/
theorem openOn_short (path : String) (range : SegmentRange) (limit : Nat)
    (h : bytes.length < headerSize) :
    ∃ r, openOn path range limit { pending := bytes } = .ok r ∧ r.done = true := by
  obtain ⟨s, htake, -⟩ := Source.take?_short (Source.has_pending bytes) h
  exact ⟨{ path, range, maxEntrySize := limit, source := s, done := true },
    by simp only [openOn, htake], rfl⟩

theorem openOn_eq_ok {path : String} {source : Source}
    (h : openOn path range limit source = .ok r) :
    r.range = range ∧ (r.done = true ∨ source.unread = magic ++ r.source.unread) := by
  unfold openOn at h
  split at h
  · cases h
  · cases h
    exact ⟨rfl, .inl rfl⟩
  · next header source' htake =>
    obtain ⟨hrest, hsome, hnone⟩ := Source.take?_eq_ok htake
    split at h
    · cases h
      exact ⟨rfl, .inl rfl⟩
    · split at h
      · next hmagic =>
        cases h
        refine ⟨rfl, .inr ?_⟩
        have hlength : headerSize ≤ source.unread.length := by
          by_contra hshort
          cases hnone (by omega)
        have htaken : source.unread.take headerSize = magic := by
          rw [← hmagic]
          exact (Option.some.inj (hsome hlength)).symm
        change source.unread = magic ++ source'.unread
        rw [hrest, ← htaken, List.take_append_drop]
      · cases h

theorem maxEntrySize_of_openOn {path : String} {source : Source}
    (h : openOn path range limit source = .ok r) : r.maxEntrySize = limit := by
  unfold openOn at h
  split at h
  · cases h
  · cases h
    rfl
  · split at h
    · cases h
      rfl
    · split at h
      · cases h
        rfl
      · cases h

/-! ## Whole frames -/

/-- The data of a whole frame with the right checksum is what `accept` gets to see. -/
theorem frame_around (h : r.Awaits range limit (data ++ (Checksum.trailer data ++ rest)))
    (hlimit : data.length ≤ limit) (hcapacity : data.length < capacityLimit) :
    ∃ r', frame data.length r = accept data r' ∧ r'.Awaits range limit rest := by
  obtain ⟨s, hdata, hs⟩ := Source.take?_append h.source
  obtain ⟨s', htrailer, hs'⟩ := Source.take?_append hs
  rw [Checksum.length_trailer] at htrailer
  refine ⟨{ r with source := s' }, ?_, h.withSource hs'⟩
  have hsize : ¬ r.maxEntrySize < data.length := by
    rw [h.limit]
    omega
  rw [frame, get_bind, if_neg hsize, if_neg (by omega),
    bind_of_ok (input_of_ok hdata)]
  dsimp only
  rw [bind_of_ok (input_of_ok (r := { r with source := s }) htrailer)]
  dsimp only
  rw [if_pos (Checksum.decode_trailer data)]

/-- A length, in whatever form it is written, tells what to make of the bytes behind it. -/
theorem next_of_number {number : Bytes} (h : r.Awaits range limit (number ++ rest))
    (hnumber : Varint.IsNumber number) (hroom : number.length ≤ Varint.maxSize) :
    ∃ s, s.Has rest ∧ next r =
      (match Varint.value number % UInt64.size with
        | 0 => padding
        | size + 1 => frame (size + 1)) { r with source := s } := by
  obtain ⟨s, hread, hs⟩ := Source.number?_append hnumber hroom h.source
  refine ⟨s, hs, ?_⟩
  rw [next, get_bind, if_neg (by simp [h.active]), bind_of_ok (input_of_ok hread)]
  cases Varint.value number % UInt64.size <;> rfl

/-- The data and the checksum of a frame are read behind their length. -/
theorem next_of_length {number : Bytes} (h : r.Awaits range limit (number ++ rest))
    (hnumber : Varint.IsNumber number) (hroom : number.length ≤ Varint.maxSize)
    (hvalue : Varint.value number % UInt64.size = data.length) (hdata : data ≠ []) :
    ∃ s, s.Has rest ∧ next r = frame data.length { r with source := s } := by
  obtain ⟨s, hs, hnext⟩ := next_of_number h hnumber hroom
  obtain ⟨size, hsize⟩ := Nat.exists_eq_add_one.mpr (List.length_pos_iff.mpr hdata)
  rw [hvalue, hsize] at hnext
  exact ⟨s, hs, by rw [hnext, hsize]⟩

theorem next_numbered {number : Bytes}
    (h : r.Awaits range limit (number ++ (data ++ (Checksum.trailer data ++ rest))))
    (hnumber : Varint.IsNumber number) (hroom : number.length ≤ Varint.maxSize)
    (hvalue : Varint.value number % UInt64.size = data.length) (hdata : data ≠ [])
    (hlimit : data.length ≤ limit) (hcapacity : data.length < capacityLimit) :
    ∃ r', next r = accept data r' ∧ r'.Awaits range limit rest := by
  obtain ⟨s, hs, hnext⟩ := next_of_length h hnumber hroom hvalue hdata
  obtain ⟨r', hframe, hr'⟩ := frame_around (h.withSource hs) hlimit hcapacity
  exact ⟨r', hnext.trans hframe, hr'⟩

theorem next_around (h : r.Awaits range limit (Frame.around data ++ rest)) (hdata : data ≠ [])
    (hlimit : data.length ≤ limit) (hcapacity : data.length < capacityLimit) :
    ∃ r', next r = accept data r' ∧ r'.Awaits range limit rest := by
  have hwidth : data.length < UInt64.size := lt_trans hcapacity (by decide)
  rw [Frame.around, List.append_assoc, List.append_assoc] at h
  exact next_numbered h (Varint.isNumber_encode _) (Varint.length_encode_le hwidth)
    (Varint.value_encode_mod hwidth) hdata hlimit hcapacity

theorem accept_admitted (hdecode : LogEntry.decode data = .ok e) (hstart : r.range.start ≤ e.index)
    (hend : ¬ r.range.EndsBefore e.index) :
    accept data r = .ok (some e) { r with position := r.position + frameSize data.length } := by
  rw [accept, get_bind]
  simp only [hdecode]
  rw [if_neg (UInt64.not_lt.mpr hstart), if_neg hend]
  rfl

theorem accept_past (hdecode : LogEntry.decode data = .ok e) (hstart : r.range.start ≤ e.index)
    (hend : r.range.EndsBefore e.index) : accept data r = .ok none { r with done := true } := by
  rw [accept, get_bind]
  simp only [hdecode]
  rw [if_neg (UInt64.not_lt.mpr hstart), if_pos hend]
  rfl

/-- Whether a reader with a limit can take an entry in: no buffer is as large as `capacityLimit`. -/
structure Takes (limit : Nat) (e : LogEntry) : Prop where
  limit : e.stripped.encodedSize ≤ limit
  capacity : e.stripped.encodedSize < capacityLimit

theorem Takes.decode (h : Takes limit e) : LogEntry.decode e.stripped.encode = .ok e.stripped :=
  LogEntry.decode_encode (LogEntry.encodable_of_encodedSize (lt_trans h.capacity (by decide)))

theorem Takes.length_le (h : Takes limit e) : e.stripped.encode.length ≤ limit := by
  rw [LogEntry.length_encode]
  exact h.limit

theorem Takes.length_lt (h : Takes limit e) : e.stripped.encode.length < capacityLimit := by
  rw [LogEntry.length_encode]
  exact h.capacity

theorem next_ofEntry (h : r.Awaits range limit (Frame.ofEntry e ++ rest)) (he : Takes limit e) :
    ∃ r', next r = accept e.stripped.encode r' ∧ r'.Awaits range limit rest :=
  next_around h (LogEntry.encode_ne_nil _) he.length_le he.length_lt

theorem next_admitted (h : r.Awaits range limit (Frame.ofEntry e ++ rest)) (he : Takes limit e)
    (hstart : range.start ≤ e.index) (hend : ¬ range.EndsBefore e.index) :
    ∃ r', next r = .ok (some e.stripped) r' ∧ r'.Awaits range limit rest := by
  obtain ⟨r', hnext, hr'⟩ := next_ofEntry h he
  rw [← hr'.range] at hstart hend
  exact ⟨_, hnext.trans (accept_admitted he.decode hstart hend), hr'.1, hr'.2, hr'.3, hr'.4⟩

theorem next_past (h : r.Awaits range limit (Frame.ofEntry e ++ rest)) (he : Takes limit e)
    (hstart : range.start ≤ e.index) (hend : range.EndsBefore e.index) :
    ∃ r', next r = .ok none r' := by
  obtain ⟨r', hnext, hr'⟩ := next_ofEntry h he
  rw [← hr'.range] at hstart hend
  exact ⟨_, hnext.trans (accept_past he.decode hstart hend)⟩

/-! ## Ends of the data -/

theorem next_nil (h : r.Awaits range limit []) : ∃ r', next r = .ok none r' := by
  obtain ⟨s, hnumber, -⟩ := Source.number?_nil h.source
  refine ⟨{ r with source := s, done := true }, ?_⟩
  rw [next, get_bind, if_neg (by simp [h.active]), bind_of_ok (input_of_ok hnumber)]
  rfl

theorem padding_of_zeros (h : r.Awaits range limit bytes) (hzero : ∀ b ∈ bytes, b = 0) :
    ∃ r', padding r = .ok none r' := by
  obtain ⟨s, hzeros, -⟩ := Source.onlyZeros_eq h.source
  have hall : bytes.all (· = 0) = true := List.all_eq_true.mpr fun b hb => by simp [hzero b hb]
  rw [hall] at hzeros
  refine ⟨{ r with source := s, done := true }, ?_⟩
  rw [padding, modify_bind, get_bind,
    bind_of_ok (input_of_ok (r := { r with done := true }) hzeros), if_pos rfl]
  rfl

/-- The zero of padding may be written in any form, like a length. -/
theorem next_padding {number : Bytes} (h : r.Awaits range limit (number ++ bytes))
    (hnumber : Varint.IsNumber number) (hroom : number.length ≤ Varint.maxSize)
    (hvalue : Varint.value number % UInt64.size = 0) (hzero : ∀ b ∈ bytes, b = 0) :
    ∃ r', next r = .ok none r' := by
  obtain ⟨s, hs, hnext⟩ := next_of_number h hnumber hroom
  obtain ⟨r', hpadding⟩ := padding_of_zeros (h.withSource hs) hzero
  rw [hvalue] at hnext
  exact ⟨r', hnext.trans hpadding⟩

theorem next_zeros {z : Nat} (h : r.Awaits range limit (List.replicate z 0)) :
    ∃ r', next r = .ok none r' := by
  cases z with
  | zero => exact next_nil h
  | succ z =>
    have hnumber : (List.replicate (z + 1) 0 : Bytes) =
        Varint.encode 0 ++ List.replicate z 0 := by
      rw [Varint.encode_zero]
      rfl
    rw [hnumber] at h
    exact next_padding h (Varint.isNumber_encode 0) (Varint.length_encode_le (by decide))
      (Varint.value_encode_mod (by decide)) fun b hb => List.eq_of_mem_replicate hb

/-! ## Frames that break off -/

theorem frame_torn {k : Nat} (h : r.Awaits range limit ((data ++ Checksum.trailer data).take k))
    (hk : k < (data ++ Checksum.trailer data).length) (hlimit : data.length ≤ limit)
    (hcapacity : data.length < capacityLimit) :
    ∃ cause r', frame data.length r = .error (.error (.corruption cause)) r' := by
  have hsize : ¬ r.maxEntrySize < data.length := by
    rw [h.limit]
    omega
  rw [frame, get_bind, if_neg hsize, if_neg (by omega)]
  by_cases hshort : k < data.length
  · obtain ⟨s, hdata, -⟩ := Source.take?_short (n := data.length) h.source (by simp; omega)
    exact ⟨.truncatedEntry r.position r.path, _, bind_of_ok (input_of_ok hdata)⟩
  · have hsource := h.source
    rw [List.take_append, List.take_of_length_le (by omega)] at hsource
    obtain ⟨s, hdata, hs⟩ := Source.take?_append hsource
    have htrailer : ((Checksum.trailer data).take (k - data.length)).length < Checksum.size := by
      rw [List.length_append, Checksum.length_trailer] at hk
      rw [List.length_take, Checksum.length_trailer]
      omega
    obtain ⟨s', htake, -⟩ := Source.take?_short hs htrailer
    refine ⟨.truncatedChecksum r.position r.path, { r with source := s' },
      (bind_of_ok (input_of_ok hdata)).trans ?_⟩
    exact bind_of_ok (input_of_ok (r := { r with source := s }) htake)

theorem next_numbered_torn {number : Bytes} {k : Nat}
    (h : r.Awaits range limit (number ++ (data ++ Checksum.trailer data).take k))
    (hnumber : Varint.IsNumber number) (hroom : number.length ≤ Varint.maxSize)
    (hvalue : Varint.value number % UInt64.size = data.length) (hdata : data ≠ [])
    (hk : k < (data ++ Checksum.trailer data).length) (hlimit : data.length ≤ limit)
    (hcapacity : data.length < capacityLimit) :
    ∃ cause r', next r = .error (.error (.corruption cause)) r' := by
  obtain ⟨s, hs, hnext⟩ := next_of_length h hnumber hroom hvalue hdata
  obtain ⟨cause, r', hframe⟩ := frame_torn (h.withSource hs) hk hlimit hcapacity
  exact ⟨cause, r', hnext.trans hframe⟩

/-- The cut may fall in the length, the data or the checksum. -/
theorem next_torn {k : Nat} (h : r.Awaits range limit ((Frame.around data).take k)) (hpos : 0 < k)
    (hk : k < (Frame.around data).length) (hdata : data ≠ []) (hlimit : data.length ≤ limit)
    (hcapacity : data.length < capacityLimit) :
    ∃ cause r', next r = .error (.error (.corruption cause)) r' := by
  have hwidth : data.length < UInt64.size := lt_trans hcapacity (by decide)
  by_cases hshort : k < (Varint.encode data.length).length
  · have hsource := h.source
    rw [Frame.around, List.take_append_of_le_length hshort.le] at hsource
    obtain ⟨s, hnumber⟩ := Source.number?_torn hwidth hpos hshort hsource
    rw [next, get_bind, if_neg (by simp [h.active])]
    exact ⟨_, _, bind_of_error (input_of_error hnumber)⟩
  · rw [Frame.around, List.take_append, List.take_of_length_le (by omega)] at h
    rw [Frame.around, List.length_append] at hk
    exact next_numbered_torn h (Varint.isNumber_encode _) (Varint.length_encode_le hwidth)
      (Varint.value_encode_mod hwidth) hdata (by omega) hlimit hcapacity

theorem next_ofEntry_torn {k : Nat} (h : r.Awaits range limit ((Frame.ofEntry e).take k))
    (he : Takes limit e) (hpos : 0 < k) (hk : k < (Frame.ofEntry e).length) :
    ∃ cause r', next r = .error (.error (.corruption cause)) r' :=
  next_torn h hpos hk (LogEntry.encode_ne_nil _) he.length_le he.length_lt

/-! ## What was read -/

/-- How an entry was handed out: the unread bytes started with a frame, whose length may have been
written longer than necessary and whose data may have had something behind the entry. -/
structure Yields (r : Reader) (e : LogEntry) (r' : Reader) (number data : Bytes) : Prop where
  unread : r.source.unread =
    number ++ (data ++ (Checksum.trailer data ++ r'.source.unread))
  isNumber : Varint.IsNumber number
  number_le : number.length ≤ Varint.maxSize
  length : data.length = Varint.value number % UInt64.size
  limit : data.length ≤ r.maxEntrySize
  capacity : data.length < capacityLimit
  decode : LogEntry.decode data = .ok e
  start : r.range.start ≤ e.index
  last : ¬ r.range.EndsBefore e.index
  position : r'.position = r.position + frameSize data.length
  path : r'.path = r.path
  range : r'.range = r.range
  maxEntrySize : r'.maxEntrySize = r.maxEntrySize
  active : r'.done = r.done

theorem accept_eq_some (h : accept data r = .ok (some e) r') :
    LogEntry.decode data = .ok e ∧ r.range.start ≤ e.index ∧ ¬ r.range.EndsBefore e.index ∧
      r' = { r with position := r.position + frameSize data.length } := by
  rw [accept, get_bind] at h
  cases hdecode : LogEntry.decode data with
  | error cause =>
    simp only [hdecode] at h
    exact absurd h throw_ne_ok
  | ok found =>
    simp only [hdecode] at h
    split at h
    · exact absurd h corrupted_ne_ok
    · next hstart =>
      split at h
      · cases (source_of_finish h).2
      · next hend =>
        rw [set_bind] at h
        obtain ⟨hfound, rfl⟩ := pure_eq_ok.mp h
        cases hfound
        exact ⟨rfl, UInt64.not_lt.mp hstart, hend, rfl⟩

/-- A trailer that is stored as the checksum of some data is the one that would be written. -/
theorem eq_trailer {trailer : Bytes} (hlength : trailer.length = Checksum.size)
    (h : UInt32.ofNat (LittleEndian.decode trailer) = Checksum.crc32 data) :
    trailer = Checksum.trailer data := by
  have hlt := LittleEndian.decode_lt trailer
  rw [hlength] at hlt
  have hstored : LittleEndian.decode trailer = (Checksum.crc32 data).toNat := by
    rw [← h, UInt32.toNat_ofNat_of_lt' hlt]
  rw [Checksum.trailer, ← hstored, ← hlength, LittleEndian.encode_decode]

theorem frame_eq_some {size : Nat} (h : frame size r = .ok (some e) r') :
    ∃ data s, r.source.unread = data ++ (Checksum.trailer data ++ s.unread) ∧
      data.length = size ∧ size ≤ r.maxEntrySize ∧ size < capacityLimit ∧
      accept data { r with source := s } = .ok (some e) r' := by
  rw [frame, get_bind] at h
  split at h
  · exact absurd h corrupted_ne_ok
  · next hlimit =>
    split at h
    · exact absurd h throw_ne_ok
    · next hcapacity =>
      obtain ⟨data?, t, hdata, hchecked⟩ := bind_eq_ok.mp h
      obtain ⟨s₁, hs₁, rfl⟩ := input_eq_ok hdata
      obtain ⟨hrest₁, hsome₁, hnone₁⟩ := Source.take?_eq_ok hs₁
      cases data? with
      | none => exact absurd hchecked corrupted_ne_ok
      | some data =>
        obtain ⟨trailer?, t, htrailer, haccepted⟩ := bind_eq_ok.mp hchecked
        obtain ⟨s₂, hs₂, rfl⟩ := input_eq_ok htrailer
        obtain ⟨hrest₂, hsome₂, hnone₂⟩ := Source.take?_eq_ok hs₂
        cases trailer? with
        | none => exact absurd haccepted corrupted_ne_ok
        | some trailer =>
          have hle₁ : size ≤ r.source.unread.length := by
            by_contra hshort
            cases hnone₁ (by omega)
          have hle₂ : Checksum.size ≤ s₁.unread.length := by
            by_contra hshort
            cases hnone₂ (by dsimp only; omega)
          have hdata := Option.some.inj (hsome₁ hle₁)
          have htrailer := Option.some.inj (hsome₂ hle₂)
          dsimp only at haccepted
          split at haccepted
          · next hchecksum =>
            have hwritten : trailer = Checksum.trailer data := by
              refine eq_trailer ?_ hchecksum
              rw [htrailer, List.length_take]
              exact Nat.min_eq_left hle₂
            refine ⟨data, s₂, ?_, ?_, by omega, by omega, haccepted⟩
            · rw [hrest₂, ← hwritten, htrailer, hdata]
              dsimp only
              rw [List.take_append_drop, hrest₁, List.take_append_drop]
            · rw [hdata, List.length_take]
              exact Nat.min_eq_left hle₁
          · exact absurd haccepted corrupted_ne_ok

/-- An entry that was handed out stood in a frame in front of the reader. -/
theorem next_eq_some (h : next r = .ok (some e) r') : ∃ number data, r.Yields e r' number data := by
  rw [next, get_bind] at h
  split at h
  · simp [pure_eq_ok] at h
  · obtain ⟨n, t, hn, hframe⟩ := bind_eq_ok.mp h
    obtain ⟨s, hs, rfl⟩ := input_eq_ok hn
    match n, hs with
    | none, _ => cases (source_of_finish hframe).2
    | some 0, _ => exact absurd hframe padding_ne_some
    | some (size + 1), hs =>
      obtain ⟨number, hnumber, hisNumber, hle, hsize⟩ := Source.number?_eq_some hs
      obtain ⟨data, s', hdata, hlength, hlimit, hcapacity, haccepted⟩ := frame_eq_some hframe
      obtain ⟨hdecode, hstart, hlast, rfl⟩ := accept_eq_some haccepted
      rw [← hlength] at hlimit hcapacity
      refine ⟨number, data, ?_, hisNumber, hle, by rw [hlength, hsize], hlimit, hcapacity, hdecode,
        hstart, hlast, rfl, rfl, rfl, rfl, rfl⟩
      rw [hnumber]
      exact congrArg (number ++ ·) hdata

theorem Yields.size_le {number data : Bytes} (h : r.Yields e r' number data) :
    Varint.size data.length ≤ number.length := by
  refine Varint.size_le_of_lt h.isNumber.length_pos (lt_of_le_of_lt ?_ (Varint.value_lt number))
  rw [h.length]
  exact Nat.mod_le _ _

/-- The space an entry is counted with was there in the file. -/
theorem Yields.footprint_le {number data : Bytes} (h : r.Yields e r' number data) :
    e.footprint + r'.source.unread.length ≤ r.source.unread.length := by
  have hdecoded := frameSize_mono (LogEntry.encodedSize_le_of_decode h.decode)
  have hnumber := h.size_le
  have htrailer := Checksum.length_trailer data
  rw [h.unread]
  simp only [List.length_append, LogEntry.footprint, frameSize] at hdecoded ⊢
  omega

theorem Yields.takes {number data : Bytes} (h : r.Yields e r' number data) :
    Takes r.maxEntrySize e := by
  have hstripped := e.encodedSize_stripped_le
  have hdecoded := LogEntry.encodedSize_le_of_decode h.decode
  exact ⟨(hstripped.trans hdecoded).trans h.limit,
    (hstripped.trans hdecoded).trans_lt h.capacity⟩

/-- A length in no more bytes than necessary is the one that would be written. -/
theorem Yields.number_eq {number data : Bytes} (h : r.Yields e r' number data)
    (hshort : number.length = Varint.size data.length) : number = Varint.encode data.length := by
  have hpos := h.isNumber.length_pos
  have hnine : number.length ≤ 9 := by
    rw [hshort]
    exact Varint.size_le_of_lt (by decide) (lt_of_lt_of_le h.capacity (by decide))
  have hvalue : Varint.value number = data.length := by
    have hlt := Varint.value_lt number
    have hpow : 128 ^ number.length ≤ 128 ^ 9 := Nat.pow_le_pow_right (by decide) hnine
    rw [h.length, Nat.mod_eq_of_lt]
    exact lt_of_lt_of_le hlt (hpow.trans (by decide))
  rw [← hvalue] at hshort ⊢
  exact h.isNumber.eq_encode hshort.le

/-- A frame that takes no more than its entry is counted with is the one that would be written. -/
theorem Yields.unread_of_footprint {number data : Bytes} (h : r.Yields e r' number data)
    (hplain : e.hasStateData = false)
    (hexact : e.footprint + r'.source.unread.length = r.source.unread.length) :
    r.source.unread = Frame.ofEntry e ++ r'.source.unread := by
  obtain ⟨extra, hdata⟩ := LogEntry.eq_encode_append_of_decode h.decode
  have hlength := congrArg List.length hdata
  rw [List.length_append, LogEntry.length_encode] at hlength
  have hsize := Varint.size_mono (show e.encodedSize ≤ data.length by omega)
  have hnumber := h.size_le
  have htrailer := Checksum.length_trailer data
  rw [h.unread] at hexact
  simp only [List.length_append, LogEntry.footprint, frameSize] at hexact
  have hnil : extra = [] := List.length_eq_zero_iff.mp (by omega)
  rw [hnil, List.append_nil] at hdata
  rw [h.unread, h.number_eq (by omega), Frame.ofEntry, Frame.around,
    LogEntry.stripped_of_not_hasStateData hplain, hdata]
  simp only [List.append_assoc]

end Reader

end SegmentedLog
