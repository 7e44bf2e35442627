import SegmentedLog.File.Consumption
import SegmentedLog.Proofs.Varint

/-! # What an input hands out

The bytes a plain input has left determine every read from it, however they are buffered. A request
for the first part of them succeeds and leaves the rest; a request for more than there is consumes
them all and yields nothing. Numbers are read in any form, and one that breaks off is told apart
from the end of the input.
-/

namespace SegmentedLog

open Stepwise

namespace Source

/-- An input whose unread bytes are `bytes`, and whose end is a plain one. -/
structure Has (s : Source) (bytes : Bytes) : Prop where
  unread : s.unread = bytes
  ending : s.ending = none

variable {s s' : Source} {bytes rest : Bytes}

theorem has_pending (bytes : Bytes) : Has { pending := bytes } bytes := ⟨rfl, rfl⟩

theorem request_ending (s : Source) (n : Nat) : (s.request n).2.ending = s.ending := by
  simp only [request, fetch, List.splitAt_eq]
  split
  · rfl
  · split <;> rfl

theorem Has.request (h : s.Has bytes) (n : Nat) : (s.request n).2.Has (bytes.drop n) :=
  ⟨by rw [(request_eq s n).2, h.unread], by rw [request_ending, h.ending]⟩

theorem atEnd_of_ending {α : Type} {a : α} (h : s.ending = none) : atEnd a s = .ok a s := by
  rw [atEnd, get_bind]
  simp only [h]
  rfl

theorem take?_append (h : s.Has (bytes ++ rest)) :
    ∃ s', take? bytes.length s = .ok (some bytes) s' ∧ s'.Has rest := by
  refine ⟨(s.request bytes.length).2, ?_, ?_⟩
  · rw [take?_eq, h.unread, if_neg (by simp), List.take_left]
  · simpa using h.request bytes.length

theorem take?_short {n : Nat} (h : s.Has bytes) (hn : bytes.length < n) :
    ∃ s', take? n s = .ok none s' ∧ s'.Has [] := by
  refine ⟨(s.request n).2, ?_, ?_⟩
  · rw [take?_eq, h.unread, if_pos hn, atEnd_of_ending (by rw [request_ending, h.ending])]
  · simpa [List.drop_of_length_le hn.le] using h.request n

theorem next?_cons {b : UInt8} (h : s.Has (b :: rest)) :
    ∃ s', next? s = .ok (some b) s' ∧ s'.Has rest := by
  have hsplit : s.Has ([b] ++ rest) := h
  obtain ⟨s', htake, hrest⟩ := take?_append hsplit
  exact ⟨s', bind_eq_ok.mpr ⟨_, s', htake, rfl⟩, hrest⟩

theorem next?_nil (h : s.Has []) : ∃ s', next? s = .ok none s' ∧ s'.Has [] := by
  obtain ⟨s', htake, hrest⟩ := take?_short (n := 1) h (by simp)
  exact ⟨s', bind_eq_ok.mpr ⟨_, s', htake, rfl⟩, hrest⟩

theorem onlyZeros_eq (h : s.Has bytes) :
    ∃ s', onlyZeros s = .ok (bytes.all (· = 0)) s' ∧ s'.Has [] := by
  refine ⟨s.exhausted, ?_, rfl, h.ending⟩
  refine bind_eq_ok.mpr ⟨s, s, rfl, bind_eq_ok.mpr ⟨_, s.exhausted, rfl, ?_⟩⟩
  refine (atEnd_of_ending (s := s.exhausted) h.ending).trans ?_
  rw [← h.unread, Source.unread, List.all_append]

/-! ## Numbers -/

open Varint

/-- Bytes in the form of a number are read as its value, modulo 2 ^ 64. -/
theorem numberFrom_append {digits : Bytes} (room taken sum : Nat) (hdigits : IsNumber digits)
    (hroom : digits.length ≤ room) (h : s.Has (digits ++ rest)) :
    ∃ s', numberFrom room taken sum s =
      .ok (some ((sum + value digits * 128 ^ taken) % UInt64.size)) s' ∧ s'.Has rest := by
  induction digits generalizing room taken sum s with
  | nil => exact hdigits.elim
  | cons b digits ih =>
    obtain ⟨room, rfl⟩ : ∃ k, room = k + 1 := ⟨room - 1, by simp at hroom; omega⟩
    obtain ⟨t, hnext, ht⟩ := next?_cons h
    by_cases hb : isLast b = true
    · have hnil : digits = [] := by simpa [IsNumber, hb] using hdigits
      subst hnil
      refine ⟨t, bind_eq_ok.mpr ⟨some b, t, hnext, ?_⟩, ht⟩
      simp only [hb, if_true, value]
      rfl
    · have hrest : IsNumber digits := by simpa [IsNumber, hb] using hdigits
      obtain ⟨s', hread, hs'⟩ := ih room (taken + 1) (sum + digit b * 128 ^ taken) hrest
        (by simpa using hroom) ht
      refine ⟨s', bind_eq_ok.mpr ⟨some b, t, hnext, ?_⟩, hs'⟩
      have hsum : sum + digit b * 128 ^ taken + value digits * 128 ^ (taken + 1) =
          sum + value (b :: digits) * 128 ^ taken := by
        rw [value, Nat.pow_succ]
        ring
      rw [hsum] at hread
      simpa only [hb, Bool.false_eq_true, if_false] using hread

theorem number?_append {digits : Bytes} (hdigits : IsNumber digits)
    (hroom : digits.length ≤ maxSize) (h : s.Has (digits ++ rest)) :
    ∃ s', number? s = .ok (some (value digits % UInt64.size)) s' ∧ s'.Has rest := by
  have hread := numberFrom_append maxSize 0 0 hdigits hroom h
  rwa [Nat.pow_zero, Nat.mul_one, Nat.zero_add] at hread

theorem number?_nil (h : s.Has []) : ∃ s', number? s = .ok none s' ∧ s'.Has [] := by
  obtain ⟨s', hnext, hs'⟩ := next?_nil h
  exact ⟨s', bind_eq_ok.mpr ⟨none, s', hnext, rfl⟩, hs'⟩

/-- Bytes none of which closes a number are one that breaks off. -/
theorem numberFrom_torn {digits : Bytes} (room taken sum : Nat)
    (hdigits : ∀ b ∈ digits, isLast b = false) (hroom : digits.length < room)
    (htaken : 0 < taken + digits.length) (h : s.Has digits) :
    ∃ s', numberFrom room taken sum s =
      .error (.error (.corruption (.truncatedNumber (taken + digits.length)))) s' := by
  obtain ⟨room, rfl⟩ : ∃ k, room = k + 1 := ⟨room - 1, by omega⟩
  induction digits generalizing room taken sum s with
  | nil =>
    obtain ⟨t, hnext, -⟩ := next?_nil h
    refine ⟨t, bind_eq_error.mpr (.inr ⟨none, t, hnext, ?_⟩)⟩
    have h0 : taken ≠ 0 := by simp at htaken; omega
    simp only [if_neg h0]
    rfl
  | cons b digits ih =>
    obtain ⟨t, hnext, ht⟩ := next?_cons h
    obtain ⟨room, rfl⟩ : ∃ k, room = k + 1 := ⟨room - 1, by simp at hroom; omega⟩
    have hb : isLast b = false := hdigits b (by simp)
    obtain ⟨s', hread⟩ := ih (taken + 1) (sum + digit b * 128 ^ taken)
      (fun c hc => hdigits c (by simp [hc])) (by omega) ht room (by simpa using hroom)
    refine ⟨s', bind_eq_error.mpr (.inr ⟨some b, t, hnext, ?_⟩)⟩
    have hcount : taken + 1 + digits.length = taken + (b :: digits).length := by
      rw [List.length_cons]
      omega
    rw [hcount] at hread
    simpa only [hb, Bool.false_eq_true, if_false] using hread

theorem number?_torn {n k : Nat} (hn : n < UInt64.size) (hk : 0 < k) (hlt : k < (encode n).length)
    (h : s.Has ((encode n).take k)) :
    ∃ s', number? s = .error (.error (.corruption (.truncatedNumber k))) s' := by
  have hlength : ((encode n).take k).length = k := by
    rw [List.length_take]
    omega
  have hmax := length_encode_le hn
  have htorn := numberFrom_torn maxSize 0 0
    (fun b hb => (isNumber_encode n).isLast_of_mem_take hlt hb) (by omega) (by omega) h
  rwa [hlength, Nat.zero_add] at htorn

/-- Bytes none of which closes a number are too many for one at some point. -/
theorem numberFrom_overlong {digits : Bytes} (taken sum : Nat)
    (hdigits : ∀ b ∈ digits, isLast b = false) (h : s.Has (digits ++ rest)) :
    ∃ s', numberFrom digits.length taken sum s =
      .error (.error (.corruption .overlongNumber)) s' := by
  induction digits generalizing taken sum s with
  | nil => exact ⟨s, rfl⟩
  | cons b digits ih =>
    rw [List.forall_mem_cons] at hdigits
    obtain ⟨t, hnext, ht⟩ := next?_cons h
    obtain ⟨s', hread⟩ := ih (taken + 1) (sum + digit b * 128 ^ taken) hdigits.2 ht
    refine ⟨s', bind_eq_error.mpr (.inr ⟨some b, t, hnext, ?_⟩)⟩
    simpa only [hdigits.1, Bool.false_eq_true, if_false] using hread

/-- In front stands nothing or a number in some form, or else reading a number fails. -/
theorem number?_cases (h : s.Has bytes) :
    bytes = [] ∨
      (∃ digits rest, bytes = digits ++ rest ∧ IsNumber digits ∧ digits.length ≤ maxSize) ∨
      ∃ cause s', number? s = .error (.error (.corruption cause)) s' := by
  rcases number_or_unclosed maxSize bytes with hnumber | hunclosed
  · exact .inr (.inl hnumber)
  by_cases hlength : maxSize ≤ bytes.length
  · have hfirst : (bytes.take maxSize).length = maxSize := List.length_take_of_le hlength
    rw [← List.take_append_drop maxSize bytes] at h
    obtain ⟨s', hread⟩ := numberFrom_overlong 0 0 hunclosed h
    rw [hfirst] at hread
    exact .inr (.inr ⟨_, s', hread⟩)
  · rw [List.take_of_length_le (by omega)] at hunclosed
    rcases Nat.eq_zero_or_pos bytes.length with hnil | hpos
    · exact .inl (List.length_eq_zero_iff.mp hnil)
    · obtain ⟨s', hread⟩ := numberFrom_torn maxSize 0 0 hunclosed (by omega) (by omega) h
      exact .inr (.inr ⟨_, s', hread⟩)

/-- A number that was read stood at the front of the unread bytes. -/
theorem numberFrom_eq_some {room taken sum n : Nat}
    (h : numberFrom room taken sum s = .ok (some n) s') :
    ∃ digits, s.unread = digits ++ s'.unread ∧ IsNumber digits ∧ digits.length ≤ room ∧
      n = (sum + value digits * 128 ^ taken) % UInt64.size := by
  induction room generalizing taken sum s with
  | zero => exact absurd h throw_ne_ok
  | succ room ih =>
    obtain ⟨b?, t, hnext, h⟩ := bind_eq_ok.mp h
    cases b? with
    | none =>
      dsimp only at h
      split at h
      · simp [pure_eq_ok] at h
      · exact absurd h throw_ne_ok
    | some b =>
      have hfirst := unread_of_next? hnext
      dsimp only at h
      split at h
      · next hb =>
        obtain ⟨hn, rfl⟩ := pure_eq_ok.mp h
        refine ⟨[b], hfirst, by simp [IsNumber, hb], by simp, ?_⟩
        simpa [value] using hn.symm
      · next hb =>
        obtain ⟨digits, hunread, hdigits, hroom, hn⟩ := ih h
        refine ⟨b :: digits, by rw [hfirst, hunread]; rfl, by simpa [IsNumber, hb] using hdigits,
          by simpa using hroom, ?_⟩
        rw [hn, value, Nat.pow_succ]
        ring_nf

theorem number?_eq_some {n : Nat} (h : number? s = .ok (some n) s') :
    ∃ digits, s.unread = digits ++ s'.unread ∧ IsNumber digits ∧ digits.length ≤ maxSize ∧
      n = value digits % UInt64.size := by
  obtain ⟨digits, hunread, hdigits, hroom, hn⟩ := numberFrom_eq_some h
  rw [Nat.pow_zero, Nat.mul_one, Nat.zero_add] at hn
  exact ⟨digits, hunread, hdigits, hroom, hn⟩

end Source

end SegmentedLog
