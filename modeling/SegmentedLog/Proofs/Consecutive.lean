import Mathlib
import SegmentedLog.Entry.Basic

/-! # Runs of consecutive indices

The entries of a segment carry indices that go up one by one. Such a run is told by where it starts:
the position of an index in it is its distance from there.
-/

namespace SegmentedLog

theorem toNat_sub_one {i : UInt64} (h : 0 < i.toNat) : (i - 1).toNat = i.toNat - 1 := by
  have hone : (1 : UInt64) ≤ i := UInt64.le_iff_toNat_le.mpr h
  rw [UInt64.toNat_sub_of_le _ _ hone]
  rfl

/-- Whether indices go up one by one from `n`. -/
def Consecutive (n : Nat) (indices : List UInt64) : Prop :=
  indices.map UInt64.toNat = List.range' n indices.length

instance (n : Nat) (indices : List UInt64) : Decidable (Consecutive n indices) :=
  inferInstanceAs (Decidable (_ = _))

namespace Consecutive

variable {n : Nat} {indices more : List UInt64} {i : UInt64}

theorem nil : Consecutive n [] := rfl

theorem cons_iff : Consecutive n (i :: indices) ↔ i.toNat = n ∧ Consecutive (n + 1) indices := by
  simp [Consecutive, List.range'_succ]

theorem append_iff : Consecutive n (indices ++ more) ↔
    Consecutive n indices ∧ Consecutive (n + indices.length) more := by
  induction indices generalizing n with
  | nil => simp [Consecutive]
  | cons i indices ih =>
    rw [List.cons_append, cons_iff, ih, cons_iff, and_assoc, List.length_cons,
      Nat.add_right_comm n 1, Nat.add_assoc n]

theorem toNat_getElem (h : Consecutive n indices) {k : Nat} (hk : k < indices.length) :
    indices[k].toNat = n + k := by
  have hget := congrArg (·[k]?) h
  simpa [hk] using hget

/-- The indices of a run are those from its start on, as many as it has. -/
theorem mem_iff (h : Consecutive n indices) :
    i ∈ indices ↔ n ≤ i.toNat ∧ i.toNat < n + indices.length := by
  constructor
  · intro hi
    have hmem : i.toNat ∈ indices.map UInt64.toNat := List.mem_map_of_mem hi
    rw [h, List.mem_range'_1] at hmem
    exact hmem
  · intro hi
    have hmem : i.toNat ∈ indices.map UInt64.toNat := by
      rw [h, List.mem_range'_1]
      exact hi
    obtain ⟨j, hj, hij⟩ := List.mem_map.mp hmem
    rwa [← UInt64.toNat_inj.mp hij]

theorem nodup (h : Consecutive n indices) : indices.Nodup :=
  .of_map UInt64.toNat (by rw [h]; exact List.nodup_range')

theorem take (h : Consecutive n indices) (k : Nat) : Consecutive n (indices.take k) := by
  rw [← List.take_append_drop k indices] at h
  exact (append_iff.mp h).1

theorem filter_lt {α : Type} {f : α → UInt64} {xs : List α} (h : Consecutive n (xs.map f))
    (i : UInt64) : xs.filter (f · < i) = xs.take (i.toNat - n) := by
  induction xs generalizing n with
  | nil => simp
  | cons x xs ih =>
    rw [List.map_cons, cons_iff] at h
    by_cases hx : f x < i
    · have hlt := UInt64.lt_iff_toNat_lt.mp hx
      rw [List.filter_cons_of_pos (by simpa using hx), ih h.2,
        show i.toNat - n = i.toNat - (n + 1) + 1 by omega, List.take_succ_cons]
    · have hle := UInt64.le_iff_toNat_le.mp (UInt64.not_lt.mp hx)
      rw [List.filter_cons_of_neg (by simpa using hx), ih h.2,
        show i.toNat - (n + 1) = 0 by omega, show i.toNat - n = 0 by omega]
      simp

theorem filter_le {α : Type} {f : α → UInt64} {xs : List α} (h : Consecutive n (xs.map f))
    (i : UInt64) : xs.filter (i ≤ f ·) = xs.drop (i.toNat - n) := by
  induction xs generalizing n with
  | nil => simp
  | cons x xs ih =>
    rw [List.map_cons, cons_iff] at h
    by_cases hx : i ≤ f x
    · have hle := UInt64.le_iff_toNat_le.mp hx
      rw [List.filter_cons_of_pos (by simpa using hx), ih h.2,
        show i.toNat - (n + 1) = 0 by omega, show i.toNat - n = 0 by omega]
      simp
    · have hlt := UInt64.lt_iff_toNat_lt.mp (UInt64.not_le.mp hx)
      rw [List.filter_cons_of_neg (by simpa using hx), ih h.2,
        show i.toNat - n = i.toNat - (n + 1) + 1 by omega, List.drop_succ_cons]

end Consecutive

end SegmentedLog
