import SegmentedLog.Proofs.RoundTrip

/-! # The range of a segment

The range in a segment's present state starts where the segment does and ends with its last entry
once it is closed. So it admits, of a file that starts with these entries, exactly these.
-/

namespace SegmentedLog

namespace Segment

variable {seg : Segment} {entries : List LogEntry}

/-- The range of a segment starts where the segment does. -/
theorem start_range (seg : Segment) : seg.range.start = seg.start := by
  unfold range
  split <;> rfl

theorem isOpen_range (seg : Segment) : seg.range.isOpen = seg.isOpen := by
  unfold range
  split
  · next hopen => exact hopen.symm
  · next hopen => exact (Bool.eq_false_of_not_eq_true hopen).symm

theorem range_of_open (h : seg.isOpen = true) : seg.range = .opening seg.start := if_pos h

/-- The last index of a closed segment is that of its last entry. -/
theorem Holds.last_range (h : seg.Holds entries) (hne : entries ≠ [])
    (hclosed : seg.isOpen = false) :
    seg.range.last.toNat + 1 = seg.start.toNat + entries.length := by
  have hpos : 0 < entries.length := List.length_pos_iff.mpr hne
  have hnext := h.next hne
  have hzero : seg.next ≠ 0 := by
    intro hzero
    rw [hzero] at hnext
    change 0 = _ at hnext
    omega
  have hrange : seg.range = .closed seg.start (seg.next - 1) := by
    rw [range, if_neg (by simp [hclosed]), if_neg hzero]
  rw [hrange]
  change (seg.next - 1).toNat + 1 = _
  rw [toNat_sub_one (by omega), hnext]
  omega

theorem Holds.proper_range (h : seg.Holds entries) (hne : entries ≠ []) : seg.range.Proper := by
  intro hclosed
  rw [isOpen_range] at hclosed
  have hpos : 0 < entries.length := List.length_pos_iff.mpr hne
  have hlast := h.last_range hne hclosed
  have hnext := h.next hne
  have hlt := seg.next.toNat_lt
  refine ⟨?_, ?_⟩
  · rw [start_range, UInt64.le_iff_toNat_le]
    omega
  · change _ < 2 ^ 64
    omega

/-- The range of a segment admits exactly the entries it holds. -/
theorem Holds.admitted_range (h : seg.Holds entries) (hne : entries ≠ []) {count : Nat}
    (hcount : entries.length ≤ count) (hopen : seg.isOpen = true → count = entries.length) :
    seg.range.admitted count = entries.length := by
  unfold SegmentRange.admitted
  rw [isOpen_range]
  cases hcase : seg.isOpen with
  | true => simpa using hopen hcase
  | false =>
    have hlast := h.last_range hne hcase
    rw [start_range, hlast]
    simp
    omega

theorem Holds.bound (h : seg.Holds entries) : ∀ e ∈ entries, e.index.toNat + 1 < UInt64.size := by
  intro e he
  have hmem := (h.consecutive.mem_iff (i := e.index)).mp (List.mem_map_of_mem he)
  have hnext := h.next (List.ne_nil_of_mem he)
  have hlt := seg.next.toNat_lt
  rw [List.length_map] at hmem
  change _ < 2 ^ 64
  omega

end Segment

end SegmentedLog
