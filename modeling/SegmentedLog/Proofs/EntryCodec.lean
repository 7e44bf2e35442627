import Mathlib
import SegmentedLog.Entry.Footprint
import SegmentedLog.Stepwise

/-! # Entries and their layouts

Decoding an entry's layout gives the entry back, whatever follows it. Conversely, bytes that decode
to an entry start with its layout, so an entry has one layout only and decoding never takes more
bytes than the entry's encoded size.
-/

namespace SegmentedLog

open Stepwise

namespace LittleEndian

/-- A number that does not fit is laid out without what stands above its bytes. -/
theorem decode_encode (width n : Nat) : decode (encode width n) = n % 256 ^ width := by
  induction width generalizing n with
  | zero => simp [encode, decode, Nat.mod_one]
  | succ width ih =>
    rw [encode, decode, ih, Nat.pow_succ', Nat.mod_mul]
    simp

theorem decode_lt (bs : Bytes) : decode bs < 256 ^ bs.length := by
  induction bs with
  | nil => simp [decode]
  | cons b bs ih =>
    have := b.toNat_lt
    simp only [decode, List.length_cons, Nat.pow_succ']
    omega

end LittleEndian

namespace LogEntry

/-- Whether the lengths of an entry's buffers fit their eight bytes. -/
structure Encodable (e : LogEntry) : Prop where
  payload : e.payload.length < UInt64.size
  stateData : ∀ data, e.stateData = some data → data.length < UInt64.size

theorem encodable_of_encodedSize {e : LogEntry} (h : e.encodedSize < UInt64.size) :
    e.Encodable := by
  refine ⟨?_, fun data hdata => ?_⟩
  · simp only [encodedSize] at h
    omega
  · simp only [encodedSize, hdata, Option.map_some, Option.getD_some] at h
    omega

theorem encodedSize_pos (e : LogEntry) : 0 < e.encodedSize := by
  simp only [encodedSize]
  omega

theorem encode_ne_nil (e : LogEntry) : e.encode ≠ [] := by
  rw [← List.length_pos_iff, length_encode]
  exact e.encodedSize_pos

theorem encodedSize_stripped (e : LogEntry) :
    e.stripped.encodedSize = 29 + e.payload.length := rfl

theorem encodedSize_stripped_le (e : LogEntry) : e.stripped.encodedSize ≤ e.encodedSize := by
  rw [encodedSize_stripped, encodedSize]
  omega

theorem map_stripped {entries : List LogEntry} (h : ∀ e ∈ entries, e.hasStateData = false) :
    entries.map (·.stripped) = entries := by
  conv_rhs => rw [← List.map_id entries]
  exact List.map_congr_left fun e he => stripped_of_not_hasStateData (h e he)

/-! ## From entries to bytes and back -/

theorem decodeNumber_encode (width : Nat) {n : Nat} (h : n < 256 ^ width) (rest : Bytes) :
    decodeNumber width (LittleEndian.encode width n ++ rest) = .ok (n, rest) := by
  simp only [decodeNumber, List.splitAt_eq]
  rw [List.take_left' (LittleEndian.length_encode width n),
    List.drop_left' (LittleEndian.length_encode width n), LittleEndian.length_encode,
    if_neg (lt_irrefl _), LittleEndian.decode_encode, Nat.mod_eq_of_lt h]

theorem decodeBuffer_encodeBuffer {data : Bytes} (h : data.length < UInt64.size) (rest : Bytes) :
    decodeBuffer (encodeBuffer data ++ rest) = .ok (data, rest) := by
  rw [encodeBuffer, List.append_assoc]
  refine exceptBind_eq_ok.mpr ⟨_, decodeNumber_encode 8 h (data ++ rest), ?_⟩
  dsimp only
  rw [List.splitAt_eq, List.take_left, List.drop_left, if_neg (lt_irrefl _)]

theorem decodeKind_encode (kind : EntryKind) (rest : Bytes) :
    decodeKind (LittleEndian.encode 4 kind.tag ++ rest) = .ok (kind, rest) := by
  have htag : kind.tag < 256 ^ 4 := by cases kind <;> decide
  refine exceptBind_eq_ok.mpr ⟨_, decodeNumber_encode 4 htag rest, ?_⟩
  simp only [EntryKind.ofTag?_tag]

theorem decodeOption_encodeOption {data : Option Bytes}
    (h : ∀ bs, data = some bs → bs.length < UInt64.size) (rest : Bytes) :
    decodeOption (encodeOption data ++ rest) = .ok (data, rest) := by
  cases data with
  | none =>
    have htag := decodeNumber_encode 1 (n := 0) (by decide) rest
    exact exceptBind_eq_ok.mpr ⟨_, htag, rfl⟩
  | some bs =>
    have htag := decodeNumber_encode 1 (n := 1) (by decide) (encodeBuffer bs ++ rest)
    have hbuffer := decodeBuffer_encodeBuffer (h bs rfl) rest
    exact exceptBind_eq_ok.mpr ⟨_, htag, exceptBind_eq_ok.mpr ⟨_, hbuffer, rfl⟩⟩

theorem decodeNext_encode {e : LogEntry} (h : e.Encodable) (rest : Bytes) :
    decodeNext (e.encode ++ rest) = .ok (e, rest) := by
  simp only [encode, List.append_assoc]
  refine exceptBind_eq_ok.mpr ⟨_, decodeNumber_encode 8 e.term.toNat_lt _, ?_⟩
  refine exceptBind_eq_ok.mpr ⟨_, decodeNumber_encode 8 e.index.toNat_lt _, ?_⟩
  refine exceptBind_eq_ok.mpr ⟨_, decodeKind_encode e.kind _, ?_⟩
  refine exceptBind_eq_ok.mpr ⟨_, decodeBuffer_encodeBuffer h.payload _, ?_⟩
  refine exceptBind_eq_ok.mpr ⟨_, decodeOption_encodeOption h.stateData rest, ?_⟩
  simp only [UInt64.ofNat_toNat]

theorem decode_encode_append {e : LogEntry} (h : e.Encodable) (rest : Bytes) :
    decode (e.encode ++ rest) = .ok e := by
  rw [decode, decodeNext_encode h]
  rfl

theorem decode_encode {e : LogEntry} (h : e.Encodable) : decode e.encode = .ok e := by
  simpa using decode_encode_append h []

/-! ## From bytes to entries and back -/

theorem decodeNumber_eq_ok {width n : Nat} {bs rest : Bytes}
    (h : decodeNumber width bs = .ok (n, rest)) :
    bs = LittleEndian.encode width n ++ rest ∧ n < 256 ^ width := by
  simp only [decodeNumber, List.splitAt_eq] at h
  split at h
  · cases h
  · next hlength =>
    have hwidth : (bs.take width).length = width := by
      rw [List.length_take] at hlength ⊢
      omega
    cases h
    have hback := LittleEndian.encode_decode (bs.take width)
    have hlt := LittleEndian.decode_lt (bs.take width)
    rw [hwidth] at hback hlt
    exact ⟨by rw [hback, List.take_append_drop], hlt⟩

theorem decodeBuffer_eq_ok {bs data rest : Bytes} (h : decodeBuffer bs = .ok (data, rest)) :
    bs = encodeBuffer data ++ rest := by
  obtain ⟨⟨length, tail⟩, hlength, hdata⟩ := exceptBind_eq_ok.mp h
  dsimp only at hdata
  rw [List.splitAt_eq] at hdata
  split at hdata
  · cases hdata
  · next hle =>
    cases hdata
    have htake : (tail.take length).length = length := by
      rw [List.length_take] at hle ⊢
      omega
    rw [(decodeNumber_eq_ok hlength).1, encodeBuffer, htake, List.append_assoc,
      List.take_append_drop]

theorem decodeKind_eq_ok {bs rest : Bytes} {kind : EntryKind}
    (h : decodeKind bs = .ok (kind, rest)) : bs = LittleEndian.encode 4 kind.tag ++ rest := by
  obtain ⟨⟨tag, tail⟩, htag, hkind⟩ := exceptBind_eq_ok.mp h
  dsimp only at hkind
  split at hkind
  · next found hfound =>
    cases hkind
    have htag' : tag = kind.tag := by
      unfold EntryKind.ofTag? at hfound
      split at hfound <;> cases hfound <;> rfl
    rw [(decodeNumber_eq_ok htag).1, htag']
  · cases hkind

theorem decodeOption_eq_ok {bs rest : Bytes} {data : Option Bytes}
    (h : decodeOption bs = .ok (data, rest)) : bs = encodeOption data ++ rest := by
  obtain ⟨⟨tag, tail⟩, htag, hdata⟩ := exceptBind_eq_ok.mp h
  rw [(decodeNumber_eq_ok htag).1]
  dsimp only at hdata
  split at hdata
  · cases hdata
    rfl
  · obtain ⟨⟨found, tail'⟩, hbuffer, hfound⟩ := exceptBind_eq_ok.mp hdata
    cases hfound
    rw [decodeBuffer_eq_ok hbuffer]
    rfl
  · cases hdata

theorem decodeNext_eq_ok {bs rest : Bytes} {e : LogEntry} (h : decodeNext bs = .ok (e, rest)) :
    bs = e.encode ++ rest := by
  obtain ⟨⟨term, bs₁⟩, hterm, h₁⟩ := exceptBind_eq_ok.mp h
  obtain ⟨⟨index, bs₂⟩, hindex, h₂⟩ := exceptBind_eq_ok.mp h₁
  obtain ⟨⟨kind, bs₃⟩, hkind, h₃⟩ := exceptBind_eq_ok.mp h₂
  obtain ⟨⟨payload, bs₄⟩, hpayload, h₄⟩ := exceptBind_eq_ok.mp h₃
  obtain ⟨⟨stateData, bs₅⟩, hdata, h₅⟩ := exceptBind_eq_ok.mp h₄
  cases h₅
  obtain ⟨hbs, hterm⟩ := decodeNumber_eq_ok hterm
  obtain ⟨hbs₁, hindex⟩ := decodeNumber_eq_ok hindex
  rw [hbs, hbs₁, decodeKind_eq_ok hkind, decodeBuffer_eq_ok hpayload, decodeOption_eq_ok hdata]
  simp only [encode, UInt64.toNat_ofNat_of_lt' hterm, UInt64.toNat_ofNat_of_lt' hindex,
    List.append_assoc]

theorem decode_eq_ok {bs : Bytes} {e : LogEntry} :
    decode bs = .ok e ↔ ∃ rest, decodeNext bs = .ok (e, rest) := by
  unfold decode
  cases decodeNext bs with
  | error cause => simp
  | ok found => simp [Prod.ext_iff]

/-- Bytes that decode to an entry start with its layout. -/
theorem eq_encode_append_of_decode {bs : Bytes} {e : LogEntry} (h : decode bs = .ok e) :
    ∃ rest, bs = e.encode ++ rest := by
  obtain ⟨rest, hnext⟩ := decode_eq_ok.mp h
  exact ⟨rest, decodeNext_eq_ok hnext⟩

theorem encodedSize_le_of_decode {bs : Bytes} {e : LogEntry} (h : decode bs = .ok e) :
    e.encodedSize ≤ bs.length := by
  obtain ⟨rest, rfl⟩ := eq_encode_append_of_decode h
  rw [List.length_append, length_encode]
  omega

def sample (index : UInt64) : LogEntry :=
  { term := 1, index, kind := .normal, payload := [1, 2], stateData := some [3] }

end LogEntry

end SegmentedLog
