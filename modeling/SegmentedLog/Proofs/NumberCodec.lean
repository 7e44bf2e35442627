import SegmentedLog.Proofs.Input

/-! # Numbers bit by bit

The written form of a 64-bit number comes out of shifting it to the right by seven bits at a time,
and reading puts the digits together in a word, each one shifted to the left by seven bits more.
What reading yields is told by the high bits of the next ten bytes: the first clear one ends a
number, and if all there are are set, the number breaks off or is too long.
-/

namespace SegmentedLog

open Stepwise

namespace Varint

def push (buffer : Bytes) (v : UInt64) : Bytes :=
  if v < 0x80 then buffer ++ [v.toUInt8] else push (buffer ++ [v.toUInt8 ||| 0x80]) (v >>> 7)
termination_by v.toNat
decreasing_by
  next h =>
    rw [UInt64.lt_iff_toNat_lt] at h
    change ¬ v.toNat < 128 at h
    change v.toNat >>> 7 < v.toNat
    rw [Nat.shiftRight_eq_div_pow]
    omega

/-- Whether the byte at `j` is the first one whose high bit is clear. -/
def ClosesAt (bytes : Bytes) (j : Nat) : Prop :=
  ∃ hj : j < bytes.length, bytes[j] &&& 0x80 = 0 ∧ ∀ i (hi : i < j), bytes[i] &&& 0x80 ≠ 0

variable {bytes : Bytes} {j : Nat}

/-! ## Bits of a byte -/

theorem toNat_lowBits (b : UInt8) : (b &&& 0x7F).toNat = digit b := by
  rw [UInt8.toNat_and]
  exact Nat.and_two_pow_sub_one_eq_mod b.toNat 7

theorem isLast_iff (b : UInt8) : isLast b = true ↔ b &&& 0x80 = 0 := by
  have hb := b.toNat_lt
  have hbit : b.toNat &&& 2 ^ 7 = (b.toNat.testBit 7).toNat * 2 ^ 7 := Nat.and_two_pow ..
  rw [← UInt8.toNat_inj, UInt8.toNat_and]
  change _ ↔ b.toNat &&& 2 ^ 7 = 0
  rw [hbit, Nat.testBit_eq_decide_div_mod_eq, isLast, decide_eq_true_eq, UInt8.lt_iff_toNat_lt]
  change b.toNat < 128 ↔ _
  by_cases hsmall : b.toNat < 128
  · simp [hsmall, Nat.div_eq_of_lt hsmall]
  · have hdiv : b.toNat / 128 = 1 := by omega
    simp [hsmall, hdiv]

theorem isLast_eq_false_iff (b : UInt8) : isLast b = false ↔ b &&& 0x80 ≠ 0 := by
  rw [Ne, ← isLast_iff, Bool.not_eq_true]

theorem or_highBit {n : Nat} (h : n < 256) : n ||| 128 = n % 128 + 128 := by
  have hset {m : Nat} (hm : m < 128) : 128 ||| m = 128 + m := by
    simpa using (Nat.two_pow_add_eq_or_of_lt (i := 7) hm 1).symm
  rw [Nat.or_comm]
  by_cases hsmall : n < 128
  · rw [hset hsmall]
    omega
  · have hn : n = 128 ||| n % 128 := by
      rw [hset (Nat.mod_lt n (by decide))]
      omega
    have hlow := hset (Nat.mod_lt n (by decide))
    calc 128 ||| n = (128 ||| 128) ||| n % 128 := by rw [Nat.or_assoc, ← hn]
      _ = n % 128 + 128 := by rw [Nat.or_self, hlow, Nat.add_comm]

/-! ## Shifting -/

theorem push_eq (buffer : Bytes) (v : UInt64) : push buffer v = buffer ++ encode v.toNat := by
  fun_induction push buffer v with
  | case1 buffer v h =>
    have hsmall : v.toNat < 128 := UInt64.lt_iff_toNat_lt.mp h
    rw [encode, if_pos hsmall]
    rfl
  | case2 buffer v h ih =>
    have hlarge : ¬ v.toNat < 128 := fun hlt => h (UInt64.lt_iff_toNat_lt.mpr hlt)
    have hbyte : v.toUInt8 ||| 0x80 = UInt8.ofNat (v.toNat % 128 + 128) := by
      rw [← UInt8.toNat_inj, UInt8.toNat_or, UInt8.toNat_ofNat', UInt64.toNat_toUInt8]
      change v.toNat % 256 ||| 128 = (v.toNat % 128 + 128) % 256
      rw [or_highBit (Nat.mod_lt _ (by decide))]
      omega
    have hrest : (v >>> 7).toNat = v.toNat / 128 := Nat.shiftRight_eq_div_pow v.toNat 7
    rw [ih, hbyte, hrest, encode.eq_def v.toNat, if_neg hlarge, List.append_assoc,
      List.singleton_append]

/-- A digit that is put in above all others adds to them. -/
theorem or_shiftLeft {taken sum : Nat} (htaken : taken < 10) (hsum : sum < 128 ^ taken)
    (b : UInt8) : UInt64.ofNat sum ||| (b &&& 0x7F).toUInt64 <<< UInt64.ofNat (7 * taken) =
      UInt64.ofNat (sum + digit b * 128 ^ taken) := by
  have hpow : 128 ^ taken = 2 ^ (7 * taken) := by rw [Nat.pow_mul]
  have hshift : (UInt64.ofNat (7 * taken)).toNat % 64 = 7 * taken := by
    rw [UInt64.toNat_ofNat']
    omega
  have hadd : sum + digit b * 2 ^ (7 * taken) = sum ||| digit b * 2 ^ (7 * taken) := by
    rw [hpow] at hsum
    rw [Nat.add_comm, Nat.mul_comm, Nat.two_pow_add_eq_or_of_lt hsum, Nat.or_comm]
  rw [← UInt64.toNat_inj, UInt64.toNat_or, UInt64.toNat_shiftLeft, hshift, UInt64.toNat_ofNat',
    UInt64.toNat_ofNat', UInt8.toNat_toUInt64, toNat_lowBits, Nat.shiftLeft_eq, hpow, hadd,
    Nat.or_mod_two_pow]

theorem size_pos (n : Nat) : 1 ≤ size n := Nat.le_add_left ..

theorem size_toNat_le (v : UInt64) : size v.toNat ≤ 10 := by
  rw [← length_encode]
  exact length_encode_le v.toNat_lt

/-! ## Where a number ends -/

theorem value_eq_sum (bytes : Bytes) : value bytes =
    ∑ i ∈ Finset.range bytes.length, (bytes.getD i 0 &&& 0x7F).toNat * 2 ^ (7 * i) := by
  induction bytes with
  | nil => rfl
  | cons b bytes ih =>
    rw [value, ih, List.length_cons, Finset.sum_range_succ', Finset.mul_sum, ← toNat_lowBits,
      Nat.add_comm]
    congr 1
    · refine Finset.sum_congr rfl fun i _ => ?_
      rw [List.getD_cons_succ, Nat.mul_succ, Nat.pow_add]
      ring
    · simp

theorem closesAt_cons {b : UInt8} :
    ClosesAt (b :: bytes) (j + 1) ↔ isLast b = false ∧ ClosesAt bytes j := by
  rw [isLast_eq_false_iff]
  constructor
  · rintro ⟨hj, hlast, hopen⟩
    exact ⟨hopen 0 (Nat.succ_pos j), Nat.lt_of_succ_lt_succ hj, hlast,
      fun i hi => hopen (i + 1) (Nat.succ_lt_succ hi)⟩
  · rintro ⟨hb, hj, hlast, hopen⟩
    refine ⟨Nat.succ_lt_succ hj, hlast, fun i hi => ?_⟩
    cases i with
    | zero => exact hb
    | succ i => exact hopen i (Nat.lt_of_succ_lt_succ hi)

/-- The bytes up to the first that closes a number are a number, and no others are. -/
theorem closesAt_iff : ClosesAt bytes j ↔ j < bytes.length ∧ IsNumber (bytes.take (j + 1)) := by
  induction bytes generalizing j with
  | nil => simp [ClosesAt]
  | cons b bytes ih =>
    cases j with
    | zero => simp [ClosesAt, IsNumber, isLast_iff]
    | succ j =>
      rw [closesAt_cons, ih, List.take_succ_cons, IsNumber, List.length_cons,
        Nat.add_lt_add_iff_right]
      cases hb : isLast b with
      | false => simp
      | true =>
        suffices j < bytes.length → bytes ≠ [] by simpa using this
        rintro hj rfl
        exact absurd hj (Nat.not_lt_zero j)

end Varint

namespace Corruption

/-- The message tells after how many bytes a number broke off. -/
theorem message_truncatedNumber {m n : Nat} :
    (truncatedNumber m).message = s!"Truncated varint after {n} bytes" ↔ m = n := by
  constructor
  · intro h
    have hdigits := String.append_right_inj _ |>.mp (String.append_left_inj _ |>.mp h)
    exact Nat.repr_inj.mp hdigits
  · rintro rfl
    rfl

theorem message_overlongNumber (n : Nat) :
    overlongNumber.message ≠ s!"Truncated varint after {n} bytes" := by
  intro h
  have hfirst : "Varint too long".toList.head? =
      ("Truncated varint after ".toList ++ ((toString n).toList ++ " bytes".toList)).head? := by
    rw [← List.append_assoc, ← String.toList_append, ← String.toList_append]
    exact congrArg (fun text : String => text.toList.head?) h
  rw [List.head?_append_of_ne_nil _ (by decide)] at hfirst
  exact absurd hfirst (by decide)

end Corruption

namespace Source

open Varint

variable {s s' : Source} {bytes rest : Bytes} {j n : Nat}

/-- Reads a number into a word, each digit seven bits above the one before. -/
def wordFrom (room taken : Nat) (word : UInt64) : Reading (Option UInt64) :=
  match room with
  | 0 => throw (.error (.corruption .overlongNumber))
  | room + 1 => do
    match ← next? with
    | none =>
      if taken = 0 then pure none
      else throw (.error (.corruption (.truncatedNumber taken)))
    | some b =>
      let word := word ||| (b &&& 0x7F).toUInt64 <<< UInt64.ofNat (7 * taken)
      if b &&& 0x80 = 0 then pure (some word)
      else wordFrom room (taken + 1) word

theorem numberFrom_eq_wordFrom {room taken sum : Nat} (hroom : taken + room ≤ maxSize)
    (hsum : sum < 128 ^ taken) : numberFrom room taken sum =
      Option.map UInt64.toNat <$> wordFrom room taken (UInt64.ofNat sum) := by
  induction room generalizing taken sum with
  | zero => rfl
  | succ room ih =>
    have htaken : taken < 10 := Nat.lt_of_lt_of_le (Nat.lt_add_of_pos_right room.succ_pos) hroom
    refine Eq.trans (bind_congr fun b? => ?_) (map_bind _ _ _).symm
    cases b? with
    | none =>
      dsimp only
      split <;> rfl
    | some b =>
      dsimp only
      rw [or_shiftLeft htaken hsum b]
      by_cases hlast : isLast b = true
      · rw [if_pos hlast, if_pos ((isLast_iff b).mp hlast), map_pure, Option.map_some,
          UInt64.toNat_ofNat']
      · have hdigit : digit b < 128 := Nat.mod_lt _ (by decide)
        have hdigits := Nat.mul_le_mul_right (128 ^ taken) (Nat.le_of_lt_succ hdigit)
        have hgrown : sum + digit b * 128 ^ taken < 128 ^ (taken + 1) := by
          rw [Nat.pow_succ]
          omega
        rw [if_neg hlast, if_neg fun hclear => hlast ((isLast_iff b).mpr hclear)]
        exact ih (by omega) hgrown

/-- Putting digits together in a word comes to the same as adding them up. -/
theorem number?_eq_wordFrom : number? = Option.map UInt64.toNat <$> wordFrom maxSize 0 0 :=
  numberFrom_eq_wordFrom le_rfl Nat.one_pos

theorem number?_closed (h : s.Has bytes) (hclose : ClosesAt bytes j) (hj : j < maxSize) :
    ∃ s', number? s = .ok (some (value (bytes.take (j + 1)) % UInt64.size)) s' ∧
      s'.Has (bytes.drop (j + 1)) := by
  obtain ⟨hlength, hnumber⟩ := closesAt_iff.mp hclose
  rw [← List.take_append_drop (j + 1) bytes] at h
  exact number?_append hnumber ((List.length_take_le ..).trans hj) h

theorem number?_unclosed (h : s.Has bytes) (hpos : 0 < bytes.length)
    (hlength : bytes.length < maxSize) (hopen : ∀ b ∈ bytes, isLast b = false) :
    ∃ s', number? s = .error (.error (.corruption (.truncatedNumber bytes.length))) s' := by
  have htorn := numberFrom_torn maxSize 0 0 hopen hlength (by omega) h
  rwa [Nat.zero_add] at htorn

theorem number?_overlong (h : s.Has bytes) (hlength : maxSize ≤ bytes.length)
    (hopen : ∀ b ∈ bytes.take maxSize, isLast b = false) :
    ∃ s', number? s = .error (.error (.corruption .overlongNumber)) s' := by
  rw [← List.take_append_drop maxSize bytes] at h
  have hread := numberFrom_overlong 0 0 hopen h
  rwa [List.length_take_of_le hlength] at hread

/-- Reading a number ends in one of four ways. -/
theorem number?_outcomes (h : s.Has bytes) :
    (bytes = [] ∧ ∃ s', number? s = .ok none s') ∨
      (∃ j < maxSize, ClosesAt bytes j ∧ ∃ s',
        number? s = .ok (some (value (bytes.take (j + 1)) % UInt64.size)) s' ∧
          s'.Has (bytes.drop (j + 1))) ∨
      ((0 < bytes.length ∧ bytes.length < maxSize ∧ ∀ b ∈ bytes, isLast b = false) ∧
        ∃ s', number? s = .error (.error (.corruption (.truncatedNumber bytes.length))) s') ∨
      (maxSize ≤ bytes.length ∧ ∀ b ∈ bytes.take maxSize, isLast b = false) ∧
        ∃ s', number? s = .error (.error (.corruption .overlongNumber)) s' := by
  rcases number_or_unclosed maxSize bytes with ⟨digits, rest, rfl, hdigits, hroom⟩ | hopen
  · have hpos := hdigits.length_pos
    have hstop : digits.length - 1 + 1 = digits.length := by omega
    have hclose : ClosesAt (digits ++ rest) (digits.length - 1) := by
      rw [closesAt_iff, hstop, List.take_left, List.length_append]
      exact ⟨by omega, hdigits⟩
    have hj : digits.length - 1 < maxSize := by omega
    exact .inr (.inl ⟨_, hj, hclose, number?_closed h hclose hj⟩)
  · by_cases hlength : maxSize ≤ bytes.length
    · exact .inr (.inr (.inr ⟨⟨hlength, hopen⟩, number?_overlong h hlength hopen⟩))
    · rw [List.take_of_length_le (by omega)] at hopen
      rcases Nat.eq_zero_or_pos bytes.length with hnil | hpos
      · rw [List.length_eq_zero_iff] at hnil
        subst hnil
        obtain ⟨s', hread, -⟩ := number?_nil h
        exact .inl ⟨rfl, s', hread⟩
      · have hlt : bytes.length < maxSize := by omega
        exact .inr (.inr (.inl ⟨⟨hpos, hlt, hopen⟩, number?_unclosed h hpos hlt hopen⟩))

/-- The sum of the digits of the first bytes, bit by bit. -/
theorem value_take (hj : j < bytes.length) : value (bytes.take (j + 1)) =
    ∑ i ∈ Finset.range (j + 1), (bytes.getD i 0 &&& 0x7F).toNat * 2 ^ (7 * i) := by
  rw [value_eq_sum, List.length_take_of_le hj]
  refine Finset.sum_congr rfl fun i hi => ?_
  rw [Finset.mem_range] at hi
  rw [List.getD_eq_getElem?_getD, List.getD_eq_getElem?_getD, List.getElem?_take_of_lt hi]

theorem number?_eq_none_iff (h : s.Has bytes) : (∃ s', number? s = .ok none s') ↔ bytes = [] := by
  constructor
  · rintro ⟨s', hread⟩
    rcases number?_outcomes h with ⟨hnil, -⟩ | ⟨j, -, -, t, hread', -⟩ | ⟨-, t, hread'⟩ |
      ⟨-, t, hread'⟩
    · exact hnil
    all_goals
      rw [hread] at hread'
      cases hread'
  · rintro rfl
    obtain ⟨s', hread, -⟩ := number?_nil h
    exact ⟨s', hread⟩

theorem number?_eq_some_iff (h : s.Has bytes) :
    (∃ s', number? s = .ok (some n) s' ∧ j < bytes.length ∧ s'.Has (bytes.drop (j + 1))) ↔
      j < maxSize ∧ ClosesAt bytes j ∧
        n = (∑ i ∈ Finset.range (j + 1), (bytes.getD i 0 &&& 0x7F).toNat * 2 ^ (7 * i)) %
          UInt64.size := by
  constructor
  · rintro ⟨s', hread, hlength, hrest⟩
    rcases number?_outcomes h with ⟨-, t, hread'⟩ | ⟨k, hk, hclose, t, hread', hrest'⟩ |
      ⟨-, t, hread'⟩ | ⟨-, t, hread'⟩
    case inr.inl =>
      rw [hread] at hread'
      cases hread'
      have hdrop := congrArg List.length (hrest.unread.symm.trans hrest'.unread)
      have hk' := hclose.1
      rw [List.length_drop, List.length_drop] at hdrop
      obtain rfl : k = j := by omega
      exact ⟨hk, hclose, by rw [value_take hlength]⟩
    all_goals
      rw [hread] at hread'
      cases hread'
  · rintro ⟨hj, hclose, rfl⟩
    rw [← value_take hclose.1]
    obtain ⟨s', hread, hrest⟩ := number?_closed h hclose hj
    exact ⟨s', hread, hclose.1, hrest⟩

theorem forall_isLast_iff : (∀ b ∈ bytes, isLast b = false) ↔ ∀ b ∈ bytes, b &&& 0x80 ≠ 0 :=
  forall₂_congr fun b _ => isLast_eq_false_iff b

theorem number?_eq_truncated_iff (h : s.Has bytes) :
    (∃ cause s', number? s = .error (.error (.corruption cause)) s' ∧
        cause.message = s!"Truncated varint after {n} bytes") ↔
      1 ≤ n ∧ n < maxSize ∧ bytes.length = n ∧ ∀ b ∈ bytes, b &&& 0x80 ≠ 0 := by
  rw [← forall_isLast_iff]
  constructor
  · rintro ⟨cause, s', hread, hmessage⟩
    rcases number?_outcomes h with ⟨-, t, hread'⟩ | ⟨j, -, -, t, hread', -⟩ |
      ⟨⟨hpos, hlt, hopen⟩, t, hread'⟩ | ⟨-, t, hread'⟩
    case inr.inr.inl =>
      rw [hread] at hread'
      cases hread'
      obtain rfl := Corruption.message_truncatedNumber.mp hmessage
      exact ⟨hpos, hlt, rfl, hopen⟩
    all_goals
      rw [hread] at hread'
      cases hread'
    exact absurd hmessage (Corruption.message_overlongNumber n)
  · rintro ⟨hpos, hlt, rfl, hopen⟩
    obtain ⟨s', hread⟩ := number?_unclosed h hpos hlt hopen
    exact ⟨_, s', hread, Corruption.message_truncatedNumber.mpr rfl⟩

theorem number?_eq_overlong_iff (h : s.Has bytes) :
    (∃ cause s', number? s = .error (.error (.corruption cause)) s' ∧
        cause.message = "Varint too long") ↔
      maxSize ≤ bytes.length ∧ ∀ b ∈ bytes.take maxSize, b &&& 0x80 ≠ 0 := by
  rw [← forall_isLast_iff]
  constructor
  · rintro ⟨cause, s', hread, hmessage⟩
    rcases number?_outcomes h with ⟨-, t, hread'⟩ | ⟨j, -, -, t, hread', -⟩ |
      ⟨-, t, hread'⟩ | ⟨hopen, t, hread'⟩
    case inr.inr.inr => exact hopen
    all_goals
      rw [hread] at hread'
      cases hread'
    exact absurd hmessage.symm (Corruption.message_overlongNumber bytes.length)
  · rintro ⟨hlength, hopen⟩
    obtain ⟨s', hread⟩ := number?_overlong h hlength hopen
    exact ⟨_, s', hread, rfl⟩

/-- A written number takes the bytes that shifting it puts into a buffer, which are as many as its
size says, and reading takes just these bytes again. Whatever bytes an input has, however they are
buffered, the place of the first clear high bit tells what reading a number yields and consumes. -/
theorem number_of_bytes (h : s.Has bytes) :
    (∀ (buffer : Bytes) (v : UInt64), push buffer v = buffer ++ encode v.toNat ∧
      (encode v.toNat).length = size v.toNat ∧ 1 ≤ size v.toNat ∧ size v.toNat ≤ 10) ∧
    (∀ (v : UInt64) (rest : Bytes), bytes = encode v.toNat ++ rest →
      ∃ s', number? s = .ok (some v.toNat) s' ∧ s'.Has rest) ∧
    ((∃ s', number? s = .ok none s') ↔ bytes = []) ∧
    (∀ j n, (∃ s', number? s = .ok (some n) s' ∧ j < bytes.length ∧ s'.Has (bytes.drop (j + 1))) ↔
      j < 10 ∧ ClosesAt bytes j ∧
        n = (∑ i ∈ Finset.range (j + 1), (bytes.getD i 0 &&& 0x7F).toNat * 2 ^ (7 * i)) % 2 ^ 64) ∧
    (∀ n, (∃ cause s', number? s = .error (.error (.corruption cause)) s' ∧
        cause.message = s!"Truncated varint after {n} bytes") ↔
      1 ≤ n ∧ n < 10 ∧ bytes.length = n ∧ ∀ b ∈ bytes, b &&& 0x80 ≠ 0) ∧
    ((∃ cause s', number? s = .error (.error (.corruption cause)) s' ∧
        cause.message = "Varint too long") ↔
      10 ≤ bytes.length ∧ ∀ b ∈ bytes.take 10, b &&& 0x80 ≠ 0) := by
  refine ⟨fun buffer v => ⟨push_eq buffer v, length_encode _, size_pos _, size_toNat_le v⟩, ?_,
    number?_eq_none_iff h, fun j n => number?_eq_some_iff h, fun n => number?_eq_truncated_iff h,
    number?_eq_overlong_iff h⟩
  rintro v rest rfl
  have hread := number?_append (isNumber_encode v.toNat) (length_encode_le v.toNat_lt) h
  rwa [value_encode_mod v.toNat_lt] at hread

/-- A number in two bytes, one of which is buffered. -/
theorem number_of_two_bytes : (Source.mk [0x85] [0x01, 0xFF] 1 none).Has [0x85, 0x01, 0xFF] ∧
    ∃ s', number? (Source.mk [0x85] [0x01, 0xFF] 1 none) = .ok (some 133) s' ∧ s'.Has [0xFF] := by
  have hhas : (Source.mk [0x85] [0x01, 0xFF] 1 none).Has [0x85, 0x01, 0xFF] := ⟨rfl, rfl⟩
  have hclose : ClosesAt [0x85, 0x01, 0xFF] 1 := ⟨by decide, by decide, by decide⟩
  obtain ⟨s', hread, -, hrest⟩ :=
    ((number_of_bytes hhas).2.2.2.1 1 133).mpr ⟨by decide, hclose, by decide⟩
  exact ⟨hhas, s', hread, hrest⟩

end Source

end SegmentedLog
