import SegmentedLog.Proofs.Lookup
import SegmentedLog.Proofs.Rejection

/-! # Finding an index among segments in use

However a segment was used, also against the rules, it does not end before it starts. So of
segments each of which ends before the next one starts, those that cover no index stand in the way
of no search: they lie before every index from their start on, and after every other.
-/

namespace SegmentedLog

open Stepwise

namespace Segment

variable {seg : Segment} {index : UInt64}

/-- Segments that are new or reconstructed from a file, and what calls make of them, also calls
that break a rule of use. -/
inductive Reachable : Segment → Prop
  | ofRange {context : SegmentContext} {range : SegmentRange} {seg : Segment}
      (hnew : ofRange context range = .ok seg) : Reachable seg
  | origin {seg : Segment} (horigin : seg.Origin) : Reachable seg
  | attempt {c : Client} (call : Call) (h : Reachable c.segment) :
      Reachable (call.attempt c).segment

def Covers (seg : Segment) (index : UInt64) : Prop :=
  ∃ last, seg.last? = some last ∧ seg.start ≤ index ∧ index ≤ last

theorem covers_iff : seg.Covers index ↔ seg.Contains index := by
  unfold Covers last?
  split
  · next hlt =>
    have hpos : 0 < seg.next.toNat := Nat.zero_lt_of_lt (UInt64.lt_iff_toNat_lt.mp hlt)
    have hlast : index ≤ seg.next - 1 ↔ index < seg.next := by
      rw [UInt64.le_iff_toNat_le, UInt64.lt_iff_toNat_lt, toNat_sub_one hpos]
      omega
    simp [Contains, hlast]
  · next hempty =>
    have hnot : ¬ seg.Contains index := fun h => hempty (UInt64.lt_of_le_of_lt h.1 h.2)
    simp [hnot]

/-- Whether a segment does not end before it starts, and its records are contiguous. -/
structure Forward (seg : Segment) : Prop where
  contiguous : seg.index.Contiguous
  start_le_next : seg.start ≤ seg.next

theorem Spans.forward {base : Nat} {entries : List LogEntry} (h : seg.Spans base entries) :
    seg.Forward := by
  refine ⟨h.contiguous, ?_⟩
  rw [UInt64.le_iff_toNat_le, h.next]
  exact Nat.le_add_right _ _

/-- A new segment of a closed range ends behind the last index of the range. -/
theorem forward_of_ofRange {context : SegmentContext} {range : SegmentRange}
    (h : ofRange context range = .ok seg) : seg.Forward := by
  refine ⟨(holds_of_ofRange h).1.contiguous, ?_⟩
  unfold ofRange at h
  split at h
  · cases h
    exact UInt64.le_refl _
  · unfold closed at h
    split at h
    · cases h
    · next horder =>
      obtain ⟨next, hnext, hseg⟩ := exceptBind_eq_ok.mp h
      cases hseg
      obtain ⟨hbound, rfl⟩ := nextIndex_eq_ok.mp hnext
      have hle := UInt64.le_iff_toNat_le.mp (UInt64.not_lt.mp horder)
      change range.start ≤ range.last + 1
      rw [UInt64.le_iff_toNat_le, toNat_add_one hbound]
      omega

end Segment

namespace Session

variable {s t : Session} {r : EntryRef} {purpose : SizePurpose} {first : UInt64}

def bounds (s : Session) : UInt64 × UInt64 := (s.segment.start, s.segment.next)

theorem removeLast_within :
    Within bounds (fun _ => True) (onIndex SegmentIndex.removeLast) := by
  intro s
  unfold onIndex SegmentIndex.removeLast
  rw [get_bind]
  cases s.segment.index.last? with
  | none => exact ⟨rfl, trivial⟩
  | some last => rfl

theorem takeOff_within (next n : Nat) : Within bounds (fun _ => True) (takeOff next n) := by
  induction n generalizing next with
  | zero => exact .pure _
  | succ n ih =>
    refine .bind removeLast_within fun removed => .ite (.throw trivial) ?_
    exact .bind (.modify fun _ => rfl) fun _ => .bind (.modify fun _ => rfl) fun _ => ih _

/-- An append puts the end of the segment behind its entry, or leaves it where it is. -/
theorem start_le_next_of_append (h : s.segment.Forward) (purpose : SizePurpose) (r : EntryRef) :
    Leaves (fun t => t.segment.start ≤ t.segment.next) (append purpose r) s := by
  unfold Leaves
  cases happend : append purpose r s with
  | ok u t =>
    obtain ⟨hnext, -, hbound, cache, refs, -, rfl⟩ :=
      (take_eq_ok_of_contiguous h.contiguous).mp (append_eq_ok.mp happend).2
    change s.segment.start ≤ r.entry.index + 1
    rw [UInt64.le_iff_toNat_le, toNat_add_one hbound]
    omega
  | error cause t =>
    by_cases hbreaks : s.segment.BreaksOff purpose r.entry
    · obtain ⟨_, _, hstopped, hstuck⟩ := append_of_breaksOff h.contiguous hbreaks
      cases happend.symm.trans hstopped
      change t.segment.start ≤ t.segment.next
      rw [hstuck.start, hstuck.next]
      exact h.start_le_next
    · rw [append_of_not_breaksOff h.contiguous hbreaks happend]
      exact h.start_le_next

/-- A truncation puts the end of the segment where it truncates, or leaves it where it is. -/
theorem start_le_next_of_truncate (h : s.segment.start ≤ s.segment.next) (first : UInt64) :
    Leaves (fun t => t.segment.start ≤ t.segment.next) (truncate first) s := by
  refine .get_bind (.ite (fun hfirst => ?_) fun _ => h)
  have hwithin := takeOff_within s.segment.next.toNat (s.segment.next.toNat - first.toNat)
  refine Leaves.bind (.of_kept hwithin fun t ht => ?_) fun _ t ht _ => ?_
  · obtain ⟨hstart, hnext⟩ := Prod.mk.inj ht
    rw [hstart, hnext]
    exact h
  · have hstart : t.segment.start = s.segment.start := congrArg Prod.fst (hwithin.of_ok ht)
    change t.segment.start ≤ first
    rw [hstart]
    exact hfirst.1

end Session

namespace Call

variable {s : Session}

/-- However a call ends, the segment does not end before it starts. -/
theorem step_leaves_start_le_next (h : s.segment.Forward) (call : Call) :
    Leaves (fun t => t.segment.start ≤ t.segment.next) call.step s := by
  have hread (hreads : call.reads = true) :
      Leaves (fun t => t.segment.start ≤ t.segment.next) call.step s := by
    refine .of_kept (step_within hreads) fun t ht => ?_
    have hbooks : t.segment.books = s.segment.books := congrArg Prod.fst ht
    obtain ⟨-, hnext, -, hindex⟩ := Segment.Books.mk.inj hbooks
    rw [Segment.start, hindex, hnext]
    exact h.start_le_next
  cases call with
  | append purpose r sink? => exact Session.start_le_next_of_append h purpose r
  | close => exact .get_bind (.ite (fun _ => h.start_le_next) fun _ => h.start_le_next)
  | truncate first => exact Session.start_le_next_of_truncate h.start_le_next first
  | clear => exact UInt64.le_refl _
  | evict | lookUp | load => exact hread rfl

theorem forward_attempt {c : Client} (h : c.segment.Forward) (call : Call) :
    (call.attempt c).segment.Forward :=
  ⟨(step_leaves_contiguous (s := call.passed c) h.contiguous call).holds_left,
    (step_leaves_start_le_next (s := call.passed c) h call).holds_left⟩

end Call

theorem Segment.Reachable.forward {seg : Segment} (h : seg.Reachable) : seg.Forward := by
  induction h with
  | ofRange hnew => exact Segment.forward_of_ofRange hnew
  | origin horigin =>
    obtain ⟨entries, hspans⟩ := horigin.spans
    exact hspans.forward
  | attempt call _ ih => exact Call.forward_attempt ih call

/-! ## The search -/

def Adjacent (segments : Array Segment) : Prop :=
  ∀ p seg seg', segments[p]? = some seg → segments[p + 1]? = some seg' → seg.next ≤ seg'.start

namespace InOrder

variable {segments : Array Segment}

/-- What holds of neighbours holds of segments that lie further apart, for those in between do not
end before they start. -/
theorem of_adjacent (hforward : ∀ seg ∈ segments, seg.start ≤ seg.next)
    (hadjacent : Adjacent segments) : InOrder segments := by
  have hget {k : Nat} (hk : k < segments.toList.length) :
      segments[k]? = some segments.toList[k] :=
    Array.getElem?_toList.symm.trans (List.getElem?_eq_getElem hk)
  refine ⟨hforward, List.pairwise_iff_getElem.mpr fun p q hp hq hlt => ?_⟩
  induction q, hlt using Nat.le_induction with
  | base => exact hadjacent p _ _ (hget hp) (hget hq)
  | succ q hlt ih =>
    have hq' : q < segments.toList.length := Nat.lt_of_succ_lt hq
    have hmid := hforward segments.toList[q] (Array.mem_toList_iff.mp (List.getElem_mem hq'))
    have hlast := hadjacent q _ _ (hget hq') (hget hq)
    exact UInt64.le_trans (ih hq') (UInt64.le_trans hmid hlast)

end InOrder

/-- The search finds the segment that covers an index, which no other one does, and finds none
exactly if no segment covers it: of segments in use each of which ends before the next one starts,
whichever of them are empty. -/
theorem findSegment?_sound_complete {segments : Array Segment}
    (hreachable : ∀ seg ∈ segments, seg.Reachable) (hadjacent : Adjacent segments)
    (index : UInt64) :
    (∀ p, findSegment? segments index = some p ↔
      ∃ seg, segments[p]? = some seg ∧ seg.Covers index) ∧
    (findSegment? segments index = none ↔ ∀ seg ∈ segments, ¬ seg.Covers index) ∧
    (∀ (p q : Nat) (seg seg' : Segment), segments[p]? = some seg → seg.Covers index →
      segments[q]? = some seg' → seg'.Covers index → p = q) ∧
    ∀ (p q : Nat) (seg seg' : Segment), segments[p]? = some seg → segments[q]? = some seg' →
      p < q → seg.compareTo index = .lt ∨ seg'.compareTo index = .gt := by
  simp only [Segment.covers_iff]
  have horder : InOrder segments :=
    .of_adjacent (fun seg hseg => (hreachable seg hseg).forward.start_le_next) hadjacent
  refine ⟨fun p => ⟨contains_of_findSegment?, ?_⟩, ⟨fun hnone seg hseg hindex => ?_,
    findSegment?_eq_none⟩, fun p q seg seg' hp hindex hq hindex' =>
      horder.position_unique hp hindex hq hindex', fun p q seg seg' hp hq hlt =>
      horder.compareTo_lt_or_gt hp hq hlt index⟩
  · rintro ⟨seg, hp, hindex⟩
    exact horder.findSegment?_of_contains hp hindex
  · obtain ⟨p, hp⟩ := Array.mem_iff_getElem?.mp hseg
    cases hnone.symm.trans (horder.findSegment?_of_contains hp hindex)

/-- A segment that was truncated to nothing does not stand in the way of the one behind it. -/
theorem segment_found_behind_emptied : ∃ emptied full : Segment,
    emptied.Reachable ∧ full.Reachable ∧ emptied.start = 5 ∧ emptied.next = 5 ∧
    full.start = 5 ∧ full.next = 8 ∧ Adjacent #[emptied, full] ∧
    findSegment? #[emptied, full] 5 = some 1 ∧ findSegment? #[emptied, full] 8 = none := by
  obtain ⟨emptied, hemptied, hstart, hnext⟩ : ∃ emptied : Segment, emptied.Reachable ∧
      emptied.start = 5 ∧ emptied.next = 5 :=
    ⟨_, .attempt (.truncate 5) (.attempt (.append .wholeAppend ⟨0, .sample 5⟩ none)
      (c := .sample) (.origin (.opening _ _))), rfl, rfl⟩
  obtain ⟨full, hnew, hstart', hnext'⟩ : ∃ full : Segment,
      Segment.ofRange ⟨"data", .strict, 64⟩ (.closed 5 7) = .ok full ∧
      full.start = 5 ∧ full.next = 8 := ⟨_, rfl, rfl, rfl⟩
  have hfull : full.Reachable := .ofRange hnew
  have hreachable : ∀ seg ∈ #[emptied, full], seg.Reachable := by
    simp [hemptied, hfull]
  have hadjacent : Adjacent #[emptied, full] := by
    rintro (_ | _ | p) seg seg' hseg hseg'
    · cases hseg
      cases hseg'
      change emptied.next ≤ full.start
      rw [hnext, hstart']
      exact UInt64.le_refl _
    · simp at hseg'
    · simp at hseg
  have hlast : full.last? = some 7 := by
    rw [Segment.last?, hstart', hnext']
    rfl
  have hnone : emptied.last? = none := by
    rw [Segment.last?, hstart, hnext]
    rfl
  obtain ⟨hsome, -⟩ := findSegment?_sound_complete hreachable hadjacent 5
  obtain ⟨-, hnot, -⟩ := findSegment?_sound_complete hreachable hadjacent 8
  refine ⟨emptied, full, hemptied, hfull, hstart, hnext, hstart', hnext', hadjacent,
    (hsome 1).mpr ⟨full, rfl, 7, hlast, ?_, by decide⟩, hnot.mpr ?_⟩
  · rw [hstart']
    exact UInt64.le_refl _
  · simp [Segment.Covers, hlast, hnone]

end SegmentedLog
