import SegmentedLog.Proofs.EntryCodec
import SegmentedLog.Failure

/-! # Layouts that are cut short

A layout is read from front to back, and each part of it tells where it ends. So wherever a layout
is cut, one part is read that breaks off, and those before it are read as they were. No layout is
the beginning of another one, and what is decoded has consumed exactly its own layout.
-/

namespace SegmentedLog

open Stepwise

/-- Whether bytes are no entry because they end too early. -/
def DecodeError.IsEnd (cause : DecodeError) : Prop := cause = .endOfNumber ∨ cause = .endOfBuffer

namespace LogEntry

namespace Decoder

variable {α β : Type} {m : Decoder α} {f : α → Decoder β} {a : α} {bs bs' : Bytes}

def andThen (m : Decoder α) (f : α → Decoder β) : Decoder β := fun bs => do
  let (a, rest) ← m bs
  f a rest

/-- Whether a decoder misses the end of these bytes wherever they are cut. -/
def Tears (m : Decoder α) (bs : Bytes) : Prop :=
  ∀ part rest, bs = part ++ rest → rest ≠ [] → ∃ cause, m part = .error cause ∧ cause.IsEnd

theorem Tears.nil (m : Decoder α) : m.Tears [] := by
  intro part rest hsplit hne
  exact absurd (List.append_eq_nil_iff.mp hsplit.symm).2 hne

/-- Two parts are cut in the first one, or behind it in the second. -/
theorem Tears.andThen (hm : m.Tears bs) (hwhole : ∀ rest, m (bs ++ rest) = .ok (a, rest))
    (hf : (f a).Tears bs') : (m.andThen f).Tears (bs ++ bs') := by
  intro part rest hsplit hne
  have hsecond (part' : Bytes) (hsplit' : bs' = part' ++ rest) :
      ∃ cause, m.andThen f (bs ++ part') = .error cause ∧ cause.IsEnd := by
    obtain ⟨cause, hcause, hend⟩ := hf part' rest hsplit' hne
    exact ⟨cause, exceptBind_eq_error.mpr (.inr ⟨_, hwhole part', hcause⟩), hend⟩
  rcases List.append_eq_append_iff.mp hsplit with ⟨part', rfl, hsplit'⟩ | ⟨missing, hfirst, hrest⟩
  · exact hsecond part' hsplit'
  · rcases eq_or_ne missing [] with rfl | hmissing
    · rw [List.append_nil] at hfirst
      have h := hsecond [] hrest.symm
      rwa [List.append_nil, hfirst] at h
    · obtain ⟨cause, hcause, hend⟩ := hm part missing hfirst hmissing
      exact ⟨cause, exceptBind_eq_error.mpr (.inl hcause), hend⟩

/-- What is computed from a value consumes nothing more. -/
theorem Tears.andThen_nil (hm : m.Tears bs) (hwhole : ∀ rest, m (bs ++ rest) = .ok (a, rest)) :
    (m.andThen f).Tears bs := by
  have h := hm.andThen hwhole (.nil (f a))
  rwa [List.append_nil] at h

end Decoder

/-! ## The parts of a layout -/

theorem tears_decodeNumber (width n : Nat) :
    (decodeNumber width).Tears (LittleEndian.encode width n) := by
  intro part rest hsplit hne
  have hlength := congrArg List.length hsplit
  have hpos := List.length_pos_iff.mpr hne
  rw [LittleEndian.length_encode, List.length_append] at hlength
  refine ⟨.endOfNumber, ?_, .inl rfl⟩
  simp only [decodeNumber, List.splitAt_eq, List.length_take]
  exact if_pos (by omega)

def takeBuffer (length : Nat) : Decoder Bytes := fun bs =>
  let (data, rest) := bs.splitAt length
  if data.length < length then .error .endOfBuffer else .ok (data, rest)

theorem tears_takeBuffer (data : Bytes) : (takeBuffer data.length).Tears data := by
  intro part rest hsplit hne
  have hlength := congrArg List.length hsplit
  have hpos := List.length_pos_iff.mpr hne
  rw [List.length_append] at hlength
  refine ⟨.endOfBuffer, ?_, .inr rfl⟩
  simp only [takeBuffer, List.splitAt_eq, List.length_take]
  exact if_pos (by omega)

theorem decodeBuffer_eq : decodeBuffer = (decodeNumber 8).andThen takeBuffer := rfl

theorem tears_decodeBuffer {data : Bytes} (h : data.length < UInt64.size) :
    Decoder.Tears decodeBuffer (encodeBuffer data) := by
  rw [decodeBuffer_eq]
  exact (tears_decodeNumber 8 _).andThen (decodeNumber_encode 8 h) (tears_takeBuffer data)

theorem decodeKind_eq : decodeKind = (decodeNumber 4).andThen fun tag rest =>
    match EntryKind.ofTag? tag with
    | some kind => .ok (kind, rest)
    | none => .error (.unknownKind tag) := rfl

theorem tears_decodeKind (kind : EntryKind) :
    Decoder.Tears decodeKind (LittleEndian.encode 4 kind.tag) := by
  have htag : kind.tag < 256 ^ 4 := by cases kind <;> decide
  rw [decodeKind_eq]
  exact (tears_decodeNumber 4 _).andThen_nil (decodeNumber_encode 4 htag)

theorem decodeOption_eq : decodeOption = (decodeNumber 1).andThen fun tag =>
    match tag with
    | 0 => fun rest => .ok (none, rest)
    | 1 => Decoder.andThen decodeBuffer fun data rest => .ok (some data, rest)
    | tag => fun _ => .error (.unknownOption tag) := by
  funext bs
  refine bind_congr fun ⟨tag, rest⟩ => ?_
  match tag with
  | 0 | 1 | _ + 2 => rfl

theorem tears_decodeOption {data : Option Bytes}
    (h : ∀ bs, data = some bs → bs.length < UInt64.size) :
    Decoder.Tears decodeOption (encodeOption data) := by
  rw [decodeOption_eq]
  cases data with
  | none =>
    exact (tears_decodeNumber 1 0).andThen_nil (decodeNumber_encode 1 (by decide))
  | some bs =>
    have hbuffer := h bs rfl
    exact (tears_decodeNumber 1 1).andThen (decodeNumber_encode 1 (by decide))
      ((tears_decodeBuffer hbuffer).andThen_nil (decodeBuffer_encodeBuffer hbuffer))

theorem decodeNext_eq : decodeNext = (decodeNumber 8).andThen fun term =>
    (decodeNumber 8).andThen fun index => Decoder.andThen decodeKind fun kind =>
      Decoder.andThen decodeBuffer fun payload => Decoder.andThen decodeOption fun stateData rest =>
        .ok (⟨UInt64.ofNat term, UInt64.ofNat index, kind, payload, stateData⟩, rest) := rfl

/-- Wherever a layout is cut, decoding it misses its end. -/
theorem tears_decodeNext {e : LogEntry} (h : e.Encodable) :
    Decoder.Tears decodeNext e.encode := by
  rw [decodeNext_eq, encode]
  refine (tears_decodeNumber 8 _).andThen (decodeNumber_encode 8 e.term.toNat_lt) ?_
  refine (tears_decodeNumber 8 _).andThen (decodeNumber_encode 8 e.index.toNat_lt) ?_
  refine (tears_decodeKind e.kind).andThen (decodeKind_encode e.kind) ?_
  refine (tears_decodeBuffer h.payload).andThen (decodeBuffer_encodeBuffer h.payload) ?_
  exact (tears_decodeOption h.stateData).andThen_nil (decodeOption_encodeOption h.stateData)

/-! ## What was decoded -/

theorem length_of_takeBuffer {length : Nat} {bs data rest : Bytes}
    (h : takeBuffer length bs = .ok (data, rest)) : data.length ≤ length := by
  simp only [takeBuffer, List.splitAt_eq] at h
  split at h
  · cases h
  · cases h
    exact List.length_take_le ..

theorem length_of_decodeBuffer {bs data rest : Bytes} (h : decodeBuffer bs = .ok (data, rest)) :
    data.length < UInt64.size := by
  rw [decodeBuffer_eq] at h
  obtain ⟨⟨length, tail⟩, hlength, hdata⟩ := exceptBind_eq_ok.mp h
  exact lt_of_le_of_lt (length_of_takeBuffer hdata) (decodeNumber_eq_ok hlength).2

theorem length_of_decodeOption {bs rest : Bytes} {data : Option Bytes}
    (h : decodeOption bs = .ok (data, rest)) :
    ∀ found, data = some found → found.length < UInt64.size := by
  rintro found rfl
  obtain ⟨⟨tag, tail⟩, -, hdata⟩ := exceptBind_eq_ok.mp h
  dsimp only at hdata
  split at hdata
  · cases hdata
  · obtain ⟨⟨found', tail'⟩, hbuffer, hfound⟩ := exceptBind_eq_ok.mp hdata
    cases hfound
    exact length_of_decodeBuffer hbuffer
  · cases hdata

theorem encodable_of_decodeNext {bs rest : Bytes} {e : LogEntry}
    (h : decodeNext bs = .ok (e, rest)) : e.Encodable := by
  obtain ⟨⟨term, bs₁⟩, -, h₁⟩ := exceptBind_eq_ok.mp h
  obtain ⟨⟨index, bs₂⟩, -, h₂⟩ := exceptBind_eq_ok.mp h₁
  obtain ⟨⟨kind, bs₃⟩, -, h₃⟩ := exceptBind_eq_ok.mp h₂
  obtain ⟨⟨payload, bs₄⟩, hpayload, h₄⟩ := exceptBind_eq_ok.mp h₃
  obtain ⟨⟨stateData, bs₅⟩, hdata, h₅⟩ := exceptBind_eq_ok.mp h₄
  cases h₅
  exact ⟨length_of_decodeBuffer hpayload, length_of_decodeOption hdata⟩

theorem decodeNext_eq_ok_iff {bs rest : Bytes} {e : LogEntry} :
    decodeNext bs = .ok (e, rest) ↔ e.Encodable ∧ bs = e.encode ++ rest := by
  constructor
  · intro h
    exact ⟨encodable_of_decodeNext h, decodeNext_eq_ok h⟩
  · rintro ⟨h, rfl⟩
    exact decodeNext_encode h rest

/-- Decoding bytes that are a layout cut short fails for want of more. -/
theorem decode_of_proper_prefix {e : LogEntry} (h : e.Encodable) {part : Bytes}
    (hpart : part <+: e.encode) (hne : part ≠ e.encode) :
    ∃ cause, decode part = .error cause ∧ cause.IsEnd := by
  obtain ⟨rest, hsplit⟩ := hpart
  have hrest : rest ≠ [] := by
    rintro rfl
    exact hne (by rwa [List.append_nil] at hsplit)
  obtain ⟨cause, hcause, hend⟩ := tears_decodeNext h part rest hsplit.symm hrest
  exact ⟨cause, by rw [decode, hcause]; rfl, hend⟩

/-- The layout of an entry has the size that is told without writing it, gives the entry back
whatever follows it, and cut short gives none. Bytes that give the entry start with its layout, and
what they are taken for ends with it. -/
theorem codec_exact (e : LogEntry) :
    e.encode.length = e.encodedSize ∧
    (e.Encodable →
      (∀ rest, decode (e.encode ++ rest) = .ok e) ∧
      (∀ part, part <+: e.encode → part ≠ e.encode → ∃ cause, decode part = .error cause ∧
        cause.IsEnd ∧ (SegmentError.decode cause).errorClass = .serialization) ∧
      ∀ e' : LogEntry, e'.Encodable → e.encode <+: e'.encode → e = e') ∧
    ∀ bs, decode bs = .ok e → e.Encodable ∧
      ∃ rest, decodeNext bs = .ok (e, rest) ∧ bs = e.encode ++ rest := by
  refine ⟨length_encode e, fun h => ⟨decode_encode_append h, fun part hpart hne => ?_,
    fun e' h' hprefix => ?_⟩, fun bs hdecode => ?_⟩
  · obtain ⟨cause, hcause, hend⟩ := decode_of_proper_prefix h hpart hne
    exact ⟨cause, hcause, hend, rfl⟩
  · obtain ⟨rest, hrest⟩ := hprefix
    have hsame := decode_encode_append h rest
    rw [hrest, decode_encode h'] at hsame
    cases hsame
    rfl
  · obtain ⟨rest, hnext⟩ := decode_eq_ok.mp hdecode
    obtain ⟨hencodable, hbs⟩ := decodeNext_eq_ok_iff.mp hnext
    exact ⟨hencodable, rest, hnext, hbs⟩

/-- An entry of forty bytes is decoded from these and two more, but not from the first thirty. -/
theorem sample_codec_exact : (sample 5).encode.length = 40 ∧
    decode ((sample 5).encode ++ [1, 2]) = .ok (sample 5) ∧
    ∃ cause, decode ((sample 5).encode.take 30) = .error cause ∧ cause.IsEnd := by
  obtain ⟨hlength, hwhole, -⟩ := codec_exact (sample 5)
  obtain ⟨hrest, htorn, -⟩ := hwhole (encodable_of_encodedSize (by decide))
  obtain ⟨cause, hcause, hend, -⟩ := htorn _ (List.take_prefix 30 _) (by decide)
  exact ⟨hlength, hrest [1, 2], cause, hcause, hend⟩

end LogEntry

end SegmentedLog
