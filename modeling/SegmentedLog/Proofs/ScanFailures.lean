import Mathlib
import SegmentedLog.File.Opened
import SegmentedLog.Stepwise

/-! # How a scan may fail

A scan fails because the file cannot be read, because what it holds is malformed, or because a rule
of use is broken. That a segment is inconsistent is not for a scan to say.
-/

namespace SegmentedLog

open Stepwise

def Failure.IsInconsistent : Failure → Prop
  | .error (.inconsistent _ _) => True
  | _ => False

/-- Whether steps fail with anything but an inconsistent segment. -/
def Consistent {σ α : Type} (m : EStateM Failure σ α) : Prop :=
  Within (fun _ => ()) (fun cause => ¬ cause.IsInconsistent) m

namespace Source

theorem atEnd_consistent {α : Type} (a : α) : Consistent (atEnd a) := by
  refine .bind .get fun s => ?_
  cases s.ending with
  | none => exact .pure a
  | some cause => exact .throw id

theorem take?_consistent (n : Nat) : Consistent (take? n) := by
  refine .bind .get fun s => .bind (.set fun _ => rfl) fun _ => ?_
  exact .ite (atEnd_consistent none) (.pure _)

theorem next?_consistent : Consistent next? := .bind (take?_consistent 1) fun _ => .pure _

theorem numberFrom_consistent (room taken sum : Nat) : Consistent (numberFrom room taken sum) := by
  induction room generalizing taken sum with
  | zero => exact .throw id
  | succ room ih =>
    refine .bind next?_consistent fun b => ?_
    cases b with
    | none => exact .ite (.pure _) (.throw id)
    | some b => exact .ite (.pure _) (ih _ _)

theorem onlyZeros_consistent : Consistent onlyZeros :=
  .bind .get fun _ => .bind (.set fun _ => rfl) fun _ => atEnd_consistent _

end Source

namespace Reader

theorem input_consistent {α : Type} {read : Source.Reading α} (h : Consistent read) :
    Consistent (input read) := by
  intro r
  unfold input
  cases hread : read r.source with
  | ok a s => rfl
  | error cause s => exact ⟨rfl, (h.of_error hread).2⟩

theorem finish_consistent : Consistent finish := .bind (.modify fun _ => rfl) fun _ => .pure _

theorem accept_consistent (data : Bytes) : Consistent (accept data) := by
  refine .bind .get fun r => ?_
  cases LogEntry.decode data with
  | error cause => exact .throw id
  | ok e =>
    refine .ite (.throw id) (.ite finish_consistent ?_)
    exact .bind (.set fun _ => rfl) fun _ => .pure _

theorem frame_consistent (size : Nat) : Consistent (frame size) := by
  refine .bind .get fun r => .ite (.throw id) (.ite (.throw id) ?_)
  refine .bind (input_consistent (Source.take?_consistent _)) fun data => ?_
  cases data with
  | none => exact .throw id
  | some data =>
    refine .bind (input_consistent (Source.take?_consistent _)) fun trailer => ?_
    cases trailer with
    | none => exact .throw id
    | some trailer => exact .ite (accept_consistent data) (.throw id)

theorem padding_consistent : Consistent padding := by
  refine .bind (.modify fun _ => rfl) fun _ => .bind .get fun r => ?_
  refine .bind (input_consistent Source.onlyZeros_consistent) fun clean => ?_
  cases clean with
  | true => exact .pure _
  | false => exact .throw id

theorem next_consistent : Consistent next := by
  refine .bind .get fun r => .ite (.pure _) ?_
  refine .bind (input_consistent (Source.numberFrom_consistent _ _ _)) fun size => ?_
  match size with
  | none => exact finish_consistent
  | some 0 => exact padding_consistent
  | some (size + 1) => exact frame_consistent (size + 1)

theorem openOn_consistent {path : String} {range : SegmentRange} {limit : Nat} {source : Source}
    {cause : Failure} (h : openOn path range limit source = .error cause) :
    ¬ cause.IsInconsistent := by
  unfold openOn at h
  split at h
  · next htake =>
    cases h
    exact ((Source.take?_consistent headerSize).of_error htake).2
  · cases h
  · split at h
    · cases h
    · split at h
      · cases h
      · cases h
        exact id

end Reader

namespace Scan

theorem checkOrder_consistent {path : String} {start index : UInt64} {previous : Option UInt64}
    {cause : Failure} (h : checkOrder path start previous index = .error cause) :
    ¬ cause.IsInconsistent := by
  unfold checkOrder at h
  split at h
  · split at h <;> cases h
    exact id
  · split at h
    · cases h
      exact id
    · split at h <;> cases h
      exact id

theorem ofReader_consistent (previous : Option UInt64) (r : Reader) :
    ∀ cause, (ofReader previous r).failure = some cause → ¬ cause.IsInconsistent := by
  fun_induction ofReader previous r with
  | case1 previous r cause r' hnext =>
    intro cause' h
    cases h
    exact (Reader.next_consistent.of_error hnext).2
  | case2 =>
    intro cause h
    cases h
  | case3 previous r e r' hnext _ cause horder =>
    intro cause' h
    cases h
    exact checkOrder_consistent horder
  | case4 previous r e r' hnext _ horder ih => exact ih

end Scan

theorem Disk.scan_consistent (disk : Disk) (path : String) (range : SegmentRange) (limit : Nat) :
    ∀ cause, (disk.scan path range limit).failure = some cause → ¬ cause.IsInconsistent := by
  intro cause h
  unfold Disk.scan at h
  split at h
  · cases h
    exact id
  · unfold Scan.ofSource at h
    split at h
    · next hopen =>
      cases h
      exact Reader.openOn_consistent hopen
    · exact Scan.ofReader_consistent _ _ cause h

end SegmentedLog
