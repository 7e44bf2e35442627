import Mathlib
import SegmentedLog.Segment.Find

/-! # Segments that lie one behind the other

Of segments that lie one behind the other at most one contains an index: those before it end before
the index, and those behind it start after it. So whichever segment the search looks at tells on
which side of it the wanted one lies, and the search ends there. Segments that cover no index may
lie anywhere between the others.
-/

namespace SegmentedLog

namespace Segment

variable {seg : Segment} {index : UInt64}

theorem compareTo_eq_eq : seg.compareTo index = .eq ↔ seg.Contains index := by
  unfold compareTo
  split
  · next hcontains => simpa using hcontains
  · next hcontains => split <;> simpa using hcontains

theorem compareTo_of_behind (h : seg.next ≤ index) : seg.compareTo index = .lt := by
  have hcontains : ¬ seg.Contains index := fun hcontains => UInt64.not_lt.mpr h hcontains.2
  rw [compareTo, if_neg hcontains, if_pos h]

theorem compareTo_of_before (horder : seg.start ≤ seg.next) (h : index < seg.start) :
    seg.compareTo index = .gt := by
  have hcontains : ¬ seg.Contains index := fun hcontains => UInt64.not_lt.mpr hcontains.1 h
  have hnext : ¬ seg.next ≤ index := UInt64.not_le.mpr (UInt64.lt_of_lt_of_le h horder)
  rw [compareTo, if_neg hcontains, if_neg hnext]

end Segment

/-- Whether segments lie one behind the other: none ends before it starts, and each ends before
those behind it start. -/
structure InOrder (segments : Array Segment) : Prop where
  forward : ∀ seg ∈ segments, seg.start ≤ seg.next
  apart : segments.toList.Pairwise fun seg seg' => seg.next ≤ seg'.start

namespace InOrder

variable {segments : Array Segment} {seg seg' : Segment} {index : UInt64} {p q base size : Nat}

theorem next_le_start (h : InOrder segments) (hp : segments[p]? = some seg)
    (hq : segments[q]? = some seg') (hlt : p < q) : seg.next ≤ seg'.start := by
  rw [← Array.getElem?_toList] at hp hq
  obtain ⟨hp', rfl⟩ := List.getElem?_eq_some_iff.mp hp
  obtain ⟨hq', rfl⟩ := List.getElem?_eq_some_iff.mp hq
  exact List.pairwise_iff_getElem.mp h.apart p q hp' hq' hlt

/-- Along the segments the comparison answers that they lie before an index, then once at most that
they contain it, then that they lie behind it. -/
theorem compareTo_lt_or_gt (h : InOrder segments) (hp : segments[p]? = some seg)
    (hq : segments[q]? = some seg') (hlt : p < q) (index : UInt64) :
    seg.compareTo index = .lt ∨ seg'.compareTo index = .gt := by
  rcases UInt64.le_or_lt seg.next index with hbehind | hbefore
  · exact .inl (Segment.compareTo_of_behind hbehind)
  · exact .inr (Segment.compareTo_of_before (h.forward seg' (Array.mem_of_getElem? hq))
      (UInt64.lt_of_lt_of_le hbefore (h.next_le_start hp hq hlt)))

/-- A segment behind one that contains an index lies behind the index. -/
theorem compareTo_of_lt (h : InOrder segments) (hp : segments[p]? = some seg)
    (hindex : seg.Contains index) (hq : segments[q]? = some seg') (hlt : p < q) :
    seg'.compareTo index = .gt := by
  refine (h.compareTo_lt_or_gt hp hq hlt index).resolve_left ?_
  rw [Segment.compareTo_eq_eq.mpr hindex]
  decide

/-- A segment before one that contains an index lies before the index. -/
theorem compareTo_of_gt (h : InOrder segments) (hp : segments[p]? = some seg)
    (hindex : seg.Contains index) (hq : segments[q]? = some seg') (hlt : q < p) :
    seg'.compareTo index = .lt := by
  refine (h.compareTo_lt_or_gt hq hp hlt index).resolve_right ?_
  rw [Segment.compareTo_eq_eq.mpr hindex]
  decide

theorem position_unique (h : InOrder segments) (hp : segments[p]? = some seg)
    (hindex : seg.Contains index) (hq : segments[q]? = some seg') (hindex' : seg'.Contains index) :
    p = q := by
  rcases lt_trichotomy p q with hlt | heq | hlt
  · have hgt := h.compareTo_of_lt hp hindex hq hlt
    rw [Segment.compareTo_eq_eq.mpr hindex'] at hgt
    cases hgt
  · exact heq
  · have hlt := h.compareTo_of_gt hp hindex hq hlt
    rw [Segment.compareTo_eq_eq.mpr hindex'] at hlt
    cases hlt

/-- The position of the segment that contains an index is never given up. -/
theorem narrow_eq (h : InOrder segments) (hp : segments[p]? = some seg)
    (hindex : seg.Contains index) (hbase : base ≤ p) (hsize : p < base + size) :
    narrow segments index base size = p := by
  induction size using Nat.strongRecOn generalizing base with
  | ind size ih =>
    rw [narrow]
    split
    · next hsmall => omega
    · next hlarge =>
      have hless : size - size / 2 < size := by omega
      cases hmid : segments[base + size / 2]? with
      | none =>
        simp only [hmid]
        have hbound := (Array.getElem?_eq_some_iff.mp hp).1
        have hout := Array.getElem?_eq_none_iff.mp hmid
        exact ih _ hless hbase (by omega)
      | some mid =>
        simp only [hmid]
        by_cases hlt : p < base + size / 2
        · rw [if_pos (h.compareTo_of_lt hp hindex hmid hlt)]
          exact ih _ hless hbase (by omega)
        · have hnot : mid.compareTo index ≠ .gt := by
            rcases Nat.eq_or_lt_of_le (Nat.le_of_not_lt hlt) with heq | hgt
            · rw [heq, hp] at hmid
              cases hmid
              rw [Segment.compareTo_eq_eq.mpr hindex]
              decide
            · rw [h.compareTo_of_gt hp hindex hmid hgt]
              decide
          rw [if_neg hnot]
          exact ih _ hless (by omega) (by omega)

theorem findSegment?_of_contains (h : InOrder segments) (hp : segments[p]? = some seg)
    (hindex : seg.Contains index) : findSegment? segments index = some p := by
  have hbound : p < 0 + segments.size := by
    rw [Nat.zero_add]
    exact (Array.getElem?_eq_some_iff.mp hp).1
  have hposition := h.narrow_eq hp hindex (Nat.zero_le p) hbound
  unfold findSegment?
  rw [hposition]
  dsimp only
  rw [hp]
  exact if_pos (Segment.compareTo_eq_eq.mpr hindex)

end InOrder

/-- Wherever the search ends, the segment there contains the index, or none is found. -/
theorem contains_of_findSegment? {segments : Array Segment} {index : UInt64} {p : Nat}
    (h : findSegment? segments index = some p) :
    ∃ seg, segments[p]? = some seg ∧ seg.Contains index := by
  unfold findSegment? at h
  dsimp only at h
  split at h
  · next seg hfound =>
    split at h
    · next heq =>
      cases h
      exact ⟨seg, hfound, Segment.compareTo_eq_eq.mp heq⟩
    · cases h
  · cases h

theorem findSegment?_eq_none {segments : Array Segment} {index : UInt64}
    (h : ∀ seg ∈ segments, ¬ seg.Contains index) : findSegment? segments index = none := by
  cases hfound : findSegment? segments index with
  | none => rfl
  | some p =>
    obtain ⟨seg, hp, hindex⟩ := contains_of_findSegment? hfound
    exact absurd hindex (h seg (Array.mem_of_getElem? hp))

end SegmentedLog
