import Mathlib
import SegmentedLog.Bytes.Varint

/-! # What variable-length numbers stand for

The digits of a number make its value, and only its last byte closes it. Writing a number and
adding up the digits gives it back; no form of a number is shorter than the written one.
-/

namespace SegmentedLog.Varint

def value : Bytes → Nat
  | [] => 0
  | b :: bs => digit b + 128 * value bs

/-- Whether bytes are the form of one number: it ends with the first byte that closes one. -/
def IsNumber : Bytes → Prop
  | [] => False
  | b :: bs => if isLast b then bs = [] else IsNumber bs

theorem isLast_ofNat {n : Nat} (h : n < 128) : isLast (UInt8.ofNat n) = true := by
  rw [isLast, decide_eq_true_eq, UInt8.lt_iff_toNat_lt, UInt8.toNat_ofNat']
  change n % 256 < 128
  omega

theorem isLast_ofNat_add {n : Nat} (h : n < 128) : isLast (UInt8.ofNat (n + 128)) = false := by
  rw [isLast, decide_eq_false_iff_not, UInt8.lt_iff_toNat_lt, UInt8.toNat_ofNat']
  change ¬ (n + 128) % 256 < 128
  omega

theorem digit_ofNat {n : Nat} (h : n < 256) : digit (UInt8.ofNat n) = n % 128 := by
  rw [digit, UInt8.toNat_ofNat', Nat.mod_eq_of_lt (show n < 2 ^ 8 from h)]

theorem isNumber_encode (n : Nat) : IsNumber (encode n) := by
  fun_induction encode n with
  | case1 n h => simp [IsNumber, isLast_ofNat h]
  | case2 n h ih =>
    have hlow : n % 128 < 128 := Nat.mod_lt n (by decide)
    rw [IsNumber, isLast_ofNat_add hlow]
    exact ih

theorem encode_zero : encode 0 = [0] := by
  rw [encode]
  rfl

theorem value_encode (n : Nat) : value (encode n) = n := by
  fun_induction encode n with
  | case1 n h =>
    rw [value, value, digit_ofNat (by omega)]
    omega
  | case2 n h ih =>
    rw [value, ih, digit_ofNat (by omega)]
    omega

theorem value_encode_mod {n : Nat} (h : n < UInt64.size) : value (encode n) % UInt64.size = n := by
  rw [value_encode, Nat.mod_eq_of_lt h]

theorem value_lt (bs : Bytes) : value bs < 128 ^ bs.length := by
  induction bs with
  | nil => simp [value]
  | cons b bs ih =>
    have hdigit : digit b < 128 := Nat.mod_lt _ (by decide)
    rw [value, List.length_cons, Nat.pow_succ']
    omega

theorem IsNumber.length_pos {bs : Bytes} (h : IsNumber bs) : 0 < bs.length := by
  cases bs with
  | nil => exact h.elim
  | cons b bs => exact Nat.succ_pos _

/-- A number that breaks off has no byte that closes it. -/
theorem IsNumber.isLast_of_mem_take {bs : Bytes} (h : IsNumber bs) {k : Nat} (hk : k < bs.length)
    {b : UInt8} (hb : b ∈ bs.take k) : isLast b = false := by
  induction bs generalizing k with
  | nil => exact h.elim
  | cons c bs ih =>
    cases k with
    | zero => simp at hb
    | succ k =>
      rw [List.length_cons] at hk
      by_cases hc : isLast c = true
      · have hnil : bs = [] := by simpa [IsNumber, hc] using h
        simp [hnil] at hk
      · have hrest : IsNumber bs := by simpa [IsNumber, hc] using h
        rw [List.take_succ_cons, List.mem_cons] at hb
        rcases hb with rfl | hb
        · simpa using hc
        · exact ih hrest (by omega) hb

/-- Bytes start with a number of at most `room` bytes, or none of so many closes one. -/
theorem number_or_unclosed (room : Nat) (bytes : Bytes) :
    (∃ digits rest, bytes = digits ++ rest ∧ IsNumber digits ∧ digits.length ≤ room) ∨
      ∀ b ∈ bytes.take room, isLast b = false := by
  induction bytes generalizing room with
  | nil => exact .inr (by simp)
  | cons b bytes ih =>
    cases room with
    | zero => exact .inr (by simp)
    | succ room =>
      by_cases hb : isLast b = true
      · exact .inl ⟨[b], bytes, rfl, by simp [IsNumber, hb], by simp⟩
      · rcases ih room with ⟨digits, rest, rfl, hdigits, hroom⟩ | hunclosed
        · exact .inl ⟨b :: digits, rest, rfl, by simpa [IsNumber, hb] using hdigits,
            by simpa using hroom⟩
        · refine .inr ?_
          rw [List.take_succ_cons, List.forall_mem_cons]
          exact ⟨by simpa using hb, hunclosed⟩

theorem size_mono {m n : Nat} (h : m ≤ n) : size m ≤ size n := by
  have hlog : m.log2 ≤ n.log2 := by
    by_cases hm : m = 0
    · simp [hm]
    · rw [Nat.le_log2 (by omega)]
      exact (Nat.log2_self_le hm).trans h
  have hdiv := Nat.div_le_div_right (c := 7) hlog
  simp only [size]
  omega

/-- However many bytes a number was given, its written form has no more. -/
theorem size_le_of_lt {n k : Nat} (hk : 0 < k) (h : n < 128 ^ k) : size n ≤ k := by
  have hlog : n.log2 < 7 * k := by
    by_cases hn : n = 0
    · simp [hn]; omega
    · rw [Nat.log2_lt hn, Nat.pow_mul]
      exact h
  rw [size]
  omega

/-- A number in no more bytes than its written form has is its written form. -/
theorem IsNumber.eq_encode {bs : Bytes} (h : IsNumber bs) (hle : bs.length ≤ size (value bs)) :
    bs = encode (value bs) := by
  induction bs with
  | nil => exact h.elim
  | cons b bs ih =>
    have hb := b.toNat_lt
    by_cases hlast : isLast b = true
    · have hnil : bs = [] := by simpa [IsNumber, hlast] using h
      have hsmall : b.toNat < 128 := by
        rwa [isLast, decide_eq_true_eq, UInt8.lt_iff_toNat_lt] at hlast
      have hvalue : value (b :: bs) = b.toNat := by
        rw [hnil, value, value, digit, Nat.mod_eq_of_lt hsmall]
        omega
      rw [hvalue, encode, if_pos hsmall, hnil, UInt8.ofNat_toNat]
    · have hrest : IsNumber bs := by simpa [IsNumber, hlast] using h
      have hlarge : 128 ≤ b.toNat := by
        rw [isLast, decide_eq_true_eq, UInt8.lt_iff_toNat_lt] at hlast
        exact not_lt.mp hlast
      have hpos := hrest.length_pos
      rw [List.length_cons] at hle
      have hvalue : 128 ≤ value (b :: bs) := by
        by_contra hlt
        have hone := size_le_of_lt (k := 1) Nat.one_pos (by rw [pow_one]; exact not_le.mp hlt)
        omega
      have hdigit : digit b = b.toNat - 128 := by
        rw [digit]
        omega
      have hlow : value (b :: bs) % 128 = digit b := by
        rw [value, digit]
        omega
      have hhigh : value (b :: bs) / 128 = value bs := by
        rw [value, digit]
        omega
      have hstep : encode (value (b :: bs)) = b :: encode (value bs) := by
        rw [encode, if_neg (not_lt.mpr hvalue), hlow, hhigh, hdigit, Nat.sub_add_cancel hlarge,
          UInt8.ofNat_toNat]
      have hsize : size (value (b :: bs)) = size (value bs) + 1 := by
        rw [← length_encode, hstep, List.length_cons, length_encode]
      rw [hstep, ← ih hrest (by omega)]

theorem length_encode_le {n : Nat} (h : n < UInt64.size) : (encode n).length ≤ maxSize := by
  rw [length_encode]
  exact size_le_of_lt (by decide) (lt_trans h (by decide))

end SegmentedLog.Varint
