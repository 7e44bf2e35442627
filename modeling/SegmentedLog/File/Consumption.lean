import SegmentedLog.File.Reader
import SegmentedLog.Stepwise

/-! # Reading consumes its input

Whatever a read yields, what is left unread is an end part of what was unread before, and a number
or an entry costs at least one byte. So reading a file entry by entry comes to an end.
-/

namespace SegmentedLog

open Stepwise

namespace Source

variable {s s' : Source}

theorem atEnd_eq_ok {α : Type} {a b : α} (h : atEnd a s = .ok b s') : b = a ∧ s' = s := by
  obtain ⟨u, t, hget, h⟩ := bind_eq_ok.mp h
  obtain ⟨rfl, rfl⟩ := get_eq_ok.mp hget
  cases hend : s.ending with
  | some cause => simp only [hend] at h; exact absurd h throw_ne_ok
  | none =>
    simp only [hend] at h
    obtain ⟨rfl, rfl⟩ := pure_eq_ok.mp h
    exact ⟨rfl, rfl⟩

theorem take?_eq_ok {n : Nat} {data : Option Bytes} (h : take? n s = .ok data s') :
    s'.unread = s.unread.drop n ∧
      (n ≤ s.unread.length → data = some (s.unread.take n)) ∧
      (s.unread.length < n → data = none) := by
  rw [take?_eq] at h
  split at h
  · obtain ⟨rfl, rfl⟩ := atEnd_eq_ok h
    exact ⟨(request_eq s n).2, by omega, fun _ => rfl⟩
  · cases h
    exact ⟨(request_eq s n).2, fun _ => rfl, by omega⟩

/-- A byte that is handed out is the first of the unread ones. -/
theorem unread_of_next? {b : UInt8} (h : next? s = .ok (some b) s') :
    s.unread = b :: s'.unread := by
  obtain ⟨data, t, htake, h⟩ := bind_eq_ok.mp h
  obtain ⟨hb, rfl⟩ := pure_eq_ok.mp h
  obtain ⟨hrest, hsome, hnone⟩ := take?_eq_ok htake
  cases hu : s.unread with
  | nil => simp [hnone (by simp [hu])] at hb
  | cons c cs =>
    simp only [hsome (by simp [hu]), hu, List.take_succ_cons, Option.bind_some,
      List.head?_cons, Option.some.injEq] at hb
    rw [hrest, hu, hb]
    rfl

theorem unread_of_numberFrom {room taken sum n : Nat}
    (h : numberFrom room taken sum s = .ok (some n) s') :
    s'.unread.length < s.unread.length := by
  induction room generalizing taken sum s with
  | zero => exact absurd h throw_ne_ok
  | succ room ih =>
    obtain ⟨b?, t, hnext, h⟩ := bind_eq_ok.mp h
    cases b? with
    | none =>
      dsimp only at h
      split at h
      · simp [pure_eq_ok] at h
      · exact absurd h throw_ne_ok
    | some b =>
      have hlength := congrArg List.length (unread_of_next? hnext)
      rw [List.length_cons] at hlength
      dsimp only at h
      split at h
      · obtain ⟨_, rfl⟩ := pure_eq_ok.mp h
        omega
      · have := ih h
        omega

theorem unread_of_number? {n : Nat} (h : number? s = .ok (some n) s') :
    s'.unread.length < s.unread.length :=
  unread_of_numberFrom h

end Source

namespace Reader

variable {r r' : Reader}

theorem input_eq_ok {α : Type} {read : Source.Reading α} {a : α} (h : input read r = .ok a r') :
    ∃ source, read r.source = .ok a source ∧ r' = { r with source } := by
  unfold input at h
  split at h
  · next source hr => cases h; exact ⟨source, hr, rfl⟩
  · cases h

theorem corrupted_ne_ok {α : Type} {cause : Corruption} {a : α} : corrupted cause r ≠ .ok a r' :=
  throw_ne_ok

theorem source_of_finish {result : Option LogEntry} (h : finish r = .ok result r') :
    r'.source = r.source ∧ result = none := by
  obtain ⟨_, t, hmodify, h⟩ := bind_eq_ok.mp h
  obtain rfl := modify_eq_ok.mp hmodify
  obtain ⟨rfl, rfl⟩ := pure_eq_ok.mp h
  exact ⟨rfl, rfl⟩

theorem source_of_accept {data : Bytes} {result : Option LogEntry}
    (h : accept data r = .ok result r') : r'.source = r.source := by
  obtain ⟨_, t, hget, h⟩ := bind_eq_ok.mp h
  obtain ⟨rfl, rfl⟩ := get_eq_ok.mp hget
  cases hdecode : LogEntry.decode data with
  | error cause => simp only [hdecode] at h; exact absurd h throw_ne_ok
  | ok entry =>
    simp only [hdecode] at h
    split at h
    · exact absurd h corrupted_ne_ok
    · split at h
      · exact (source_of_finish h).1
      · obtain ⟨_, t, hset, h⟩ := bind_eq_ok.mp h
        obtain rfl := set_eq_ok.mp hset
        obtain ⟨_, rfl⟩ := pure_eq_ok.mp h
        rfl

theorem unread_of_frame {size : Nat} {result : Option LogEntry}
    (h : frame size r = .ok result r') : r'.source.unread.length ≤ r.source.unread.length := by
  obtain ⟨_, t, hget, h⟩ := bind_eq_ok.mp h
  obtain ⟨rfl, rfl⟩ := get_eq_ok.mp hget
  split at h
  · exact absurd h corrupted_ne_ok
  · split at h
    · exact absurd h throw_ne_ok
    · obtain ⟨data, t, hdata, h⟩ := bind_eq_ok.mp h
      obtain ⟨s₁, hs₁, rfl⟩ := input_eq_ok hdata
      have h₁ := congrArg List.length (Source.take?_eq_ok hs₁).1
      cases data with
      | none => exact absurd h corrupted_ne_ok
      | some data =>
        obtain ⟨trailer, t, htrailer, h⟩ := bind_eq_ok.mp h
        obtain ⟨s₂, hs₂, rfl⟩ := input_eq_ok htrailer
        have h₂ := congrArg List.length (Source.take?_eq_ok hs₂).1
        cases trailer with
        | none => exact absurd h corrupted_ne_ok
        | some trailer =>
          dsimp only at h
          split at h
          · rw [source_of_accept h]
            simp only [List.length_drop] at h₁ h₂
            show s₂.unread.length ≤ _
            omega
          · exact absurd h corrupted_ne_ok

/-- Padding holds no entry. -/
theorem padding_ne_some {e : LogEntry} : padding r ≠ .ok (some e) r' := by
  intro h
  obtain ⟨_, t, _, h⟩ := bind_eq_ok.mp h
  obtain ⟨_, t, _, h⟩ := bind_eq_ok.mp h
  obtain ⟨clean, t, _, h⟩ := bind_eq_ok.mp h
  split at h
  · simp [pure_eq_ok] at h
  · exact absurd h corrupted_ne_ok

/-- An entry costs at least one byte. -/
theorem unread_of_next {e : LogEntry} (h : next r = .ok (some e) r') :
    r'.source.unread.length < r.source.unread.length := by
  obtain ⟨_, t, hget, h⟩ := bind_eq_ok.mp h
  obtain ⟨rfl, rfl⟩ := get_eq_ok.mp hget
  split at h
  · simp [pure_eq_ok] at h
  · obtain ⟨n, t, hn, h⟩ := bind_eq_ok.mp h
    obtain ⟨s, hs, rfl⟩ := input_eq_ok hn
    match n with
    | none => simpa using (source_of_finish h).2
    | some 0 => exact absurd h padding_ne_some
    | some (size + 1) =>
      have h₁ := Source.unread_of_number? hs
      have h₂ := unread_of_frame h
      dsimp only at h₂
      omega

end Reader

end SegmentedLog
