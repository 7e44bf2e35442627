import SegmentedLog.Proofs.Consecutive
import SegmentedLog.Proofs.Reading

/-! # The grammar of segment files

A file is too short for a header, or has zeros in its place, or it is the magic followed by frames
and an ending. Lengths may be written in any form, and something may stand behind the entry in the
data of a frame. What a reader does next is told by what stands before it: a frame within the range
yields its entry, an ending none, and anything else is malformed.
-/

namespace SegmentedLog

open Stepwise

/-- Whether bytes are a frame of `e`: the length of the data in any form, the data, of which the
entry is the first part, and the checksum of the data. -/
inductive Framed (limit : Nat) (e : LogEntry) : Bytes → Prop
  | intro {number data : Bytes} (isNumber : Varint.IsNumber number)
      (number_le : number.length ≤ Varint.maxSize)
      (value_eq : Varint.value number % UInt64.size = data.length) (data_ne : data ≠ [])
      (data_le : data.length ≤ limit) (decode : LogEntry.decode data = .ok e) :
      Framed limit e (number ++ (data ++ Checksum.trailer data))

/-- Whether bytes are the frames of entries within the range that have the indices from `index` on,
and then a tail. -/
inductive Frames (range : SegmentRange) (limit : Nat) :
    (index : Nat) → (bytes : Bytes) → List LogEntry → (tail : Bytes) → Prop
  | nil {index : Nat} {tail : Bytes} : Frames range limit index tail [] tail
  | cons {index : Nat} {frame rest tail : Bytes} {e : LogEntry} {entries : List LogEntry}
      (framed : Framed limit e frame) (index_eq : e.index.toNat = index)
      (last : ¬ range.EndsBefore e.index)
      (frames : Frames range limit (index + 1) rest entries tail) :
      Frames range limit index (frame ++ rest) (e :: entries) tail

/-- What may stand behind the last frame: nothing, a zero and zeros behind it, or a frame past the
range, whatever follows that. -/
inductive Ending (range : SegmentRange) (limit : Nat) : Bytes → Prop
  | nothing : Ending range limit []
  | padding {number zeros : Bytes} (isNumber : Varint.IsNumber number)
      (number_le : number.length ≤ Varint.maxSize)
      (value_eq : Varint.value number % UInt64.size = 0) (clean : ∀ b ∈ zeros, b = 0) :
      Ending range limit (number ++ zeros)
  | past {frame : Bytes} {e : LogEntry} (rest : Bytes) (framed : Framed limit e frame)
      (start : range.start ≤ e.index) (past : range.EndsBefore e.index) :
      Ending range limit (frame ++ rest)

/-- Whether `content` is a segment file of exactly these entries. -/
inductive SegmentFile (range : SegmentRange) (limit : Nat) :
    (content : Bytes) → List LogEntry → Prop
  | short {content : Bytes} (length_lt : content.length < headerSize) :
      SegmentFile range limit content []
  | blank (rest : Bytes) : SegmentFile range limit (List.replicate headerSize 0 ++ rest) []
  | written {body tail : Bytes} {entries : List LogEntry}
      (frames : Frames range limit range.start.toNat body entries tail)
      (ending : Ending range limit tail) : SegmentFile range limit (magic ++ body) entries

def Begins (range : SegmentRange) (limit : Nat) (content : Bytes) (entries : List LogEntry) :
    Prop :=
  ∃ body tail, content = magic ++ body ∧ Frames range limit range.start.toNat body entries tail

structure LongestRun (range : SegmentRange) (limit : Nat) (content : Bytes)
    (entries : List LogEntry) : Prop where
  begins : entries ≠ [] → Begins range limit content entries
  longest : ∀ more, Begins range limit content more → more <+: entries

/-- Whether a frame follows an entry that has the largest index. -/
def Overruns (range : SegmentRange) (limit : Nat) (content : Bytes) : Prop :=
  ∃ body entries last frame e rest, content = magic ++ body ∧
    Frames range limit range.start.toNat body (entries ++ [last]) (frame ++ rest) ∧
    last.index.toNat + 1 = UInt64.size ∧ Framed limit e frame

theorem LongestRun.unique {range : SegmentRange} {limit : Nat} {content : Bytes}
    {entries entries' : List LogEntry} (h : LongestRun range limit content entries)
    (h' : LongestRun range limit content entries') : entries = entries' := by
  have hle {es es' : List LogEntry} (h : LongestRun range limit content es)
      (h' : LongestRun range limit content es') : es <+: es' := by
    by_cases hne : es = []
    · rw [hne]
      exact List.nil_prefix
    · exact h'.longest es (h.begins hne)
  exact (hle h h').eq_of_length_le (hle h' h).length_le

theorem SegmentFile.begins {range : SegmentRange} {limit : Nat} {content : Bytes}
    {entries : List LogEntry} (h : SegmentFile range limit content entries) (hne : entries ≠ []) :
    Begins range limit content entries := by
  cases h with
  | short => exact absurd rfl hne
  | blank => exact absurd rfl hne
  | written hframes => exact ⟨_, _, rfl, hframes⟩

theorem Frames.consecutive {range : SegmentRange} {limit index : Nat} {bytes tail : Bytes}
    {entries : List LogEntry} (h : Frames range limit index bytes entries tail) :
    Consecutive index (entries.map (·.index)) := by
  induction h with
  | nil => exact .nil
  | cons hframed hindex hlast hframes ih => exact Consecutive.cons_iff.mpr ⟨hindex, ih⟩

theorem Frames.overruns {range : SegmentRange} {limit : Nat} {body frame rest : Bytes}
    {e : LogEntry} {entries : List LogEntry}
    (h : Frames range limit range.start.toNat body entries (frame ++ rest))
    (hfull : range.start.toNat + entries.length = UInt64.size) (hframed : Framed limit e frame) :
    Overruns range limit (magic ++ body) := by
  have hstart := range.start.toNat_lt
  rcases List.eq_nil_or_concat entries with rfl | ⟨front, last, rfl⟩
  · exact absurd hfull (Nat.ne_of_lt hstart)
  · rw [List.concat_eq_append] at h hfull
    refine ⟨body, front, last, frame, e, rest, rfl, h, ?_, hframed⟩
    have hindices := h.consecutive
    rw [List.map_append, Consecutive.append_iff, List.length_map] at hindices
    rw [(Consecutive.cons_iff.mp hindices.2).1, ← hfull, List.length_append]
    rfl

def SegmentError.IsMalformed : SegmentError → Prop
  | .corruption _ | .decode _ => True
  | _ => False

namespace Reader

variable {r r' : Reader} {range : SegmentRange} {limit : Nat} {bytes rest frame data : Bytes}
  {e : LogEntry}

/-! ## What the pieces of the grammar make a reader do -/

theorem framed_around (hdecode : LogEntry.decode data = .ok e) (hdata : data ≠ [])
    (hle : data.length ≤ limit) (hwidth : data.length < UInt64.size) :
    Framed limit e (Frame.around data) :=
  .intro (Varint.isNumber_encode _) (Varint.length_encode_le hwidth)
    (Varint.value_encode_mod hwidth) hdata hle hdecode

theorem Takes.framed (h : Takes limit e) : Framed limit e.stripped (Frame.ofEntry e) :=
  framed_around h.decode (LogEntry.encode_ne_nil _) h.length_le (lt_trans h.length_lt (by decide))

theorem next_of_framed (h : r.Awaits range limit (frame ++ rest)) (hframed : Framed limit e frame)
    (hlimit : limit < capacityLimit) :
    ∃ data r', LogEntry.decode data = .ok e ∧ next r = accept data r' ∧
      r'.Awaits range limit rest := by
  obtain ⟨hnumber, hroom, hvalue, hdata, hle, hdecode⟩ := hframed
  rw [List.append_assoc, List.append_assoc] at h
  obtain ⟨r', hnext, hr'⟩ := next_numbered h hnumber hroom hvalue hdata hle (by omega)
  exact ⟨_, r', hdecode, hnext, hr'⟩

theorem next_of_admitted (h : r.Awaits range limit (frame ++ rest))
    (hframed : Framed limit e frame) (hlimit : limit < capacityLimit)
    (hstart : range.start ≤ e.index) (hlast : ¬ range.EndsBefore e.index) :
    ∃ r', next r = .ok (some e) r' ∧ r'.Awaits range limit rest := by
  obtain ⟨data, r', hdecode, hnext, hr'⟩ := next_of_framed h hframed hlimit
  rw [← hr'.range] at hstart hlast
  exact ⟨_, hnext.trans (accept_admitted hdecode hstart hlast), hr'.1, hr'.2, hr'.3, hr'.4⟩

theorem next_of_ending (h : r.Awaits range limit bytes) (hending : Ending range limit bytes)
    (hlimit : limit < capacityLimit) : ∃ r', next r = .ok none r' := by
  cases hending with
  | nothing => exact next_nil h
  | padding hnumber hroom hvalue hclean => exact next_padding h hnumber hroom hvalue hclean
  | past rest hframed hstart hpast =>
    obtain ⟨data, r', hdecode, hnext, hr'⟩ := next_of_framed h hframed hlimit
    rw [← hr'.range] at hstart hpast
    exact ⟨_, hnext.trans (accept_past hdecode hstart hpast)⟩

/-! ## What a reader may have before it -/

/-- Behind a zero length are zeros, or else a reader fails. -/
theorem padding_cases (h : r.Awaits range limit bytes) :
    (∀ b ∈ bytes, b = 0) ∨ ∃ cause r', padding r = .error (.error (.corruption cause)) r' := by
  obtain ⟨s, hzeros, -⟩ := Source.onlyZeros_eq h.source
  by_cases hall : bytes.all (· = 0) = true
  · exact .inl (by simpa using hall)
  · refine .inr ⟨.dirtyPadding r.position r.path, { r with source := s, done := true }, ?_⟩
    rw [padding, modify_bind, get_bind,
      bind_of_ok (input_of_ok (r := { r with done := true }) hzeros), if_neg hall]
    rfl

/-- Behind a length stands what it tells and the checksum of that, or else a reader fails. -/
theorem frame_cases {size : Nat} (h : r.Awaits range limit bytes)
    (hcapacity : size ≤ limit → size < capacityLimit) :
    (∃ data rest, bytes = data ++ (Checksum.trailer data ++ rest) ∧ data.length = size ∧
      size ≤ limit) ∨
      ∃ cause r', Reader.frame size r = .error (.error (.corruption cause)) r' := by
  rw [Reader.frame, get_bind, h.limit]
  by_cases hsize : limit < size
  · rw [if_pos hsize]
    exact .inr ⟨_, r, rfl⟩
  rw [if_neg hsize, if_neg (not_le.mpr (hcapacity (not_lt.mp hsize)))]
  by_cases hdata : bytes.length < size
  · obtain ⟨s, htake, -⟩ := Source.take?_short h.source hdata
    rw [bind_of_ok (input_of_ok htake)]
    exact .inr ⟨_, _, rfl⟩
  have hfirst : (bytes.take size).length = size := List.length_take_of_le (not_lt.mp hdata)
  have hsource := h.source
  rw [← List.take_append_drop size bytes] at hsource
  obtain ⟨s, htake, hs⟩ := Source.take?_append hsource
  rw [hfirst] at htake
  rw [bind_of_ok (input_of_ok htake)]
  dsimp only
  by_cases htrailer : (bytes.drop size).length < Checksum.size
  · obtain ⟨s', htake', -⟩ := Source.take?_short hs htrailer
    rw [bind_of_ok (input_of_ok (r := { r with source := s }) htake')]
    exact .inr ⟨_, _, rfl⟩
  have hsecond := List.length_take_of_le (not_lt.mp htrailer)
  rw [← List.take_append_drop Checksum.size (bytes.drop size)] at hs
  obtain ⟨s', htake', -⟩ := Source.take?_append hs
  rw [hsecond] at htake'
  rw [bind_of_ok (input_of_ok (r := { r with source := s }) htake')]
  dsimp only
  by_cases hchecksum : UInt32.ofNat (LittleEndian.decode ((bytes.drop size).take Checksum.size)) =
      Checksum.crc32 (bytes.take size)
  · refine .inl ⟨bytes.take size, (bytes.drop size).drop Checksum.size, ?_, hfirst, not_lt.mp hsize⟩
    rw [← eq_trailer hsecond hchecksum, List.take_append_drop, List.take_append_drop]
  · rw [if_neg hchecksum]
    exact .inr ⟨_, _, rfl⟩

/-- Data is an entry in the range or past it, or else a reader fails. -/
theorem accept_cases (data : Bytes) (r : Reader) :
    (∃ e, LogEntry.decode data = .ok e ∧ r.range.start ≤ e.index) ∨
      ∃ cause r', accept data r = .error (.error cause) r' ∧ cause.IsMalformed := by
  rw [accept, get_bind]
  cases hdecode : LogEntry.decode data with
  | error cause => exact .inr ⟨.decode cause, r, rfl, trivial⟩
  | ok e =>
    by_cases hstart : e.index < r.range.start
    · refine .inr ⟨.corruption (.beforeStart e.index r.range.start r.path), r, ?_, trivial⟩
      dsimp only
      rw [if_pos hstart]
      rfl
    · exact .inl ⟨e, rfl, UInt64.not_lt.mp hstart⟩

/-- Before a reader is a frame, an ending, or else it fails. -/
theorem next_cases (h : r.Awaits range limit bytes) (hlimit : limit < capacityLimit) :
    (∃ frame rest e, bytes = frame ++ rest ∧ Framed limit e frame ∧ range.start ≤ e.index ∧
        ¬ range.EndsBefore e.index) ∨
      Ending range limit bytes ∨
      ∃ cause r', next r = .error (.error cause) r' ∧ cause.IsMalformed := by
  rcases Source.number?_cases h.source with rfl | ⟨number, rest, rfl, hnumber, hroom⟩ |
    ⟨cause, s, hread⟩
  · exact .inr (.inl .nothing)
  · obtain ⟨s, hs, hnext⟩ := next_of_number h hnumber hroom
    cases hvalue : Varint.value number % UInt64.size with
    | zero =>
      rw [hvalue] at hnext
      rcases padding_cases (h.withSource hs) with hclean | ⟨cause, r', hpadding⟩
      · exact .inr (.inl (.padding hnumber hroom hvalue hclean))
      · exact .inr (.inr ⟨.corruption cause, r', hnext.trans hpadding, trivial⟩)
    | succ size =>
      rw [hvalue] at hnext
      rcases frame_cases (h.withSource hs) (show size + 1 ≤ limit → _ by omega) with
        ⟨data, rest, rfl, hlength, hle⟩ | ⟨cause, r', hframe⟩
      · rw [← hlength] at hvalue hle
        have hdata : data ≠ [] := List.ne_nil_of_length_eq_add_one hlength
        obtain ⟨r', haccept, hr'⟩ := next_numbered h hnumber hroom hvalue hdata hle (by omega)
        have hframed (e : LogEntry) (hdecode : LogEntry.decode data = .ok e) :
            Framed limit e (number ++ (data ++ Checksum.trailer data)) :=
          .intro hnumber hroom hvalue hdata hle hdecode
        have hbytes : number ++ (data ++ (Checksum.trailer data ++ rest)) =
            (number ++ (data ++ Checksum.trailer data)) ++ rest := by simp
        rcases accept_cases data r' with ⟨e, hdecode, hstart⟩ | ⟨cause, r'', hfail, hcause⟩
        · rw [hr'.range] at hstart
          rw [hbytes]
          by_cases hpast : range.EndsBefore e.index
          · exact .inr (.inl (.past rest (hframed e hdecode) hstart hpast))
          · exact .inl ⟨_, rest, e, rfl, hframed e hdecode, hstart, hpast⟩
        · exact .inr (.inr ⟨cause, r'', haccept.trans hfail, hcause⟩)
      · exact .inr (.inr ⟨.corruption cause, r', hnext.trans hframe, trivial⟩)
  · refine .inr (.inr ⟨.corruption cause, { r with source := s }, ?_, trivial⟩)
    rw [next, get_bind, if_neg (by simp [h.active]), bind_of_error (input_of_error hread)]

/-! ## What was read tells what stood there -/

theorem framed_of_next (h : r.Awaits range limit bytes) (hlimit : limit < capacityLimit)
    (hnext : next r = .ok (some e) r') :
    ∃ frame rest, bytes = frame ++ rest ∧ Framed limit e frame ∧ ¬ range.EndsBefore e.index ∧
      r'.Awaits range limit rest := by
  rcases next_cases h hlimit with ⟨frame, rest, e', rfl, hframed, hstart, hlast⟩ | hending |
    ⟨cause, t, hfail, -⟩
  · obtain ⟨t, hread, ht⟩ := next_of_admitted h hframed hlimit hstart hlast
    cases hnext.symm.trans hread
    exact ⟨frame, rest, rfl, hframed, hlast, ht⟩
  · obtain ⟨t, hend⟩ := next_of_ending h hending hlimit
    cases hnext.symm.trans hend
  · cases hnext.symm.trans hfail

theorem ending_of_next (h : r.Awaits range limit bytes) (hlimit : limit < capacityLimit)
    (hnext : next r = .ok none r') : Ending range limit bytes := by
  rcases next_cases h hlimit with ⟨frame, rest, e, rfl, hframed, hstart, hlast⟩ | hending |
    ⟨cause, t, hfail, -⟩
  · obtain ⟨t, hread, -⟩ := next_of_admitted h hframed hlimit hstart hlast
    cases hnext.symm.trans hread
  · exact hending
  · cases hnext.symm.trans hfail

theorem malformed_of_next {failure : Failure} (h : r.Awaits range limit bytes)
    (hlimit : limit < capacityLimit) (hnext : next r = .error failure r') :
    ∃ cause, failure = .error cause ∧ cause.IsMalformed := by
  rcases next_cases h hlimit with ⟨frame, rest, e, rfl, hframed, hstart, hlast⟩ | hending |
    ⟨cause, t, hfail, hcause⟩
  · obtain ⟨t, hread, -⟩ := next_of_admitted h hframed hlimit hstart hlast
    cases hnext.symm.trans hread
  · obtain ⟨t, hend⟩ := next_of_ending h hending hlimit
    cases hnext.symm.trans hend
  · cases hnext.symm.trans hfail
    exact ⟨cause, rfl, hcause⟩

end Reader

end SegmentedLog
