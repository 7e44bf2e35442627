import SegmentedLog.Entry.Basic

/-! # The entry layout

Term and index take eight bytes each, the kind tag four, a byte buffer an eight-byte length followed
by its bytes, and the optional state machine data a tag byte in front of its buffer. All numbers are
little-endian. Decoding ignores what follows a complete entry.
-/

namespace SegmentedLog

inductive DecodeError where
  | endOfNumber
  /-- Fewer bytes are left than a buffer's length says. -/
  | endOfBuffer
  | unknownKind (tag : Nat)
  | unknownOption (tag : Nat)
deriving DecidableEq, Repr

def DecodeError.message : DecodeError → String
  | .endOfNumber => "io error: unexpected end of file"
  | .endOfBuffer => "io error: "
  | .unknownKind tag => s!"invalid value: integer `{tag}`, expected variant index 0 <= i < 3"
  | .unknownOption tag => s!"tag for enum is not valid, found {tag}"

def EntryKind.tag : EntryKind → Nat
  | .normal => 0
  | .configuration => 1
  | .metadata => 2

def EntryKind.ofTag? : Nat → Option EntryKind
  | 0 => some .normal
  | 1 => some .configuration
  | 2 => some .metadata
  | _ => none

@[simp] theorem EntryKind.ofTag?_tag (kind : EntryKind) : ofTag? kind.tag = some kind := by
  cases kind <;> rfl

namespace LogEntry

def encodeBuffer (data : Bytes) : Bytes := LittleEndian.encode 8 data.length ++ data

def encodeOption : Option Bytes → Bytes
  | none => [0]
  | some data => 1 :: encodeBuffer data

def encode (e : LogEntry) : Bytes :=
  LittleEndian.encode 8 e.term.toNat ++ (LittleEndian.encode 8 e.index.toNat ++
    (LittleEndian.encode 4 e.kind.tag ++ (encodeBuffer e.payload ++ encodeOption e.stateData)))

/-- The length of the layout, told from the sizes of the buffers alone. -/
def encodedSize (e : LogEntry) : Nat :=
  8 + 8 + 4 + 8 + 1 + e.payload.length + (e.stateData.map (8 + ·.length)).getD 0

/-- A decoding step: what it read and the bytes after it. -/
abbrev Decoder (α : Type) := Bytes → Except DecodeError (α × Bytes)

def decodeNumber (width : Nat) : Decoder Nat := fun bs =>
  let (digits, rest) := bs.splitAt width
  if digits.length < width then .error .endOfNumber else .ok (LittleEndian.decode digits, rest)

def decodeBuffer : Decoder Bytes := fun bs => do
  let (length, rest) ← decodeNumber 8 bs
  let (data, rest) := rest.splitAt length
  if data.length < length then .error .endOfBuffer else .ok (data, rest)

def decodeKind : Decoder EntryKind := fun bs => do
  let (tag, rest) ← decodeNumber 4 bs
  match EntryKind.ofTag? tag with
  | some kind => .ok (kind, rest)
  | none => .error (.unknownKind tag)

def decodeOption : Decoder (Option Bytes) := fun bs => do
  let (tag, rest) ← decodeNumber 1 bs
  match tag with
  | 0 => .ok (none, rest)
  | 1 =>
    let (data, rest) ← decodeBuffer rest
    .ok (some data, rest)
  | tag => .error (.unknownOption tag)

/-- Reads one entry; the bytes behind it are left over. -/
def decodeNext : Decoder LogEntry := fun bs => do
  let (term, bs) ← decodeNumber 8 bs
  let (index, bs) ← decodeNumber 8 bs
  let (kind, bs) ← decodeKind bs
  let (payload, bs) ← decodeBuffer bs
  let (stateData, bs) ← decodeOption bs
  .ok ({ term := UInt64.ofNat term, index := UInt64.ofNat index, kind, payload, stateData }, bs)

def decode (bs : Bytes) : Except DecodeError LogEntry := (·.1) <$> decodeNext bs

@[simp] theorem length_encodeBuffer (data : Bytes) :
    (encodeBuffer data).length = 8 + data.length := by
  simp [encodeBuffer]

theorem length_encode (e : LogEntry) : e.encode.length = e.encodedSize := by
  cases h : e.stateData <;> simp [encode, encodedSize, encodeOption, h] <;> omega

end LogEntry

/-- An entry's identity, kind and encoded size. -/
structure EntryHeader where
  key : TermIndex
  kind : EntryKind
  size : Nat
deriving DecidableEq, Repr

def EntryHeader.of (e : LogEntry) : EntryHeader := ⟨e.key, e.kind, e.encodedSize⟩

end SegmentedLog
