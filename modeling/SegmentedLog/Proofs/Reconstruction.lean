import SegmentedLog.Proofs.Files
import SegmentedLog.Proofs.Replay
import SegmentedLog.Proofs.ScanFailures
import SegmentedLog.Proofs.Scanning

/-! # What becomes of a file and its segment

Once a scan was taken in, the consistency check has nothing to find: it compares the accounts of a
segment that agree by the way it takes entries in. So the outcome is told by the entries that were
read alone: without any the file is removed, otherwise it is cut behind the last of them.
-/

namespace SegmentedLog

open Stepwise

namespace Segment

variable {seg : Segment} {entries : List LogEntry} {last? : Option Nat} {corrupted : Bool}

theorem demand_eq_ok {α : Type} [DecidableEq α] {subject : String} {text : α → String}
    {expected actual : α} (h : expected = actual) : demand subject text expected actual = .ok () :=
  if_pos h

/-- The accounts of a segment that holds what was read agree with it. -/
theorem checkConsistency_of_holds (h : seg.Holds entries) (hne : entries ≠ [])
    (hlast : corrupted = false → last? = some (seg.start.toNat + entries.length - 1)) :
    seg.checkConsistency seg.start entries.length last? corrupted = .ok () := by
  have hpos : 0 < entries.length := List.length_pos_iff.mpr hne
  have hcount : entries.length = seg.index.size := h.length_records.symm
  have hnext : seg.start.toNat + entries.length - 1 + 1 = seg.next.toNat := by
    rw [h.next hne]
    omega
  have hfinal (final : LogRecord) (hfinal : seg.index.last? = some final) :
      seg.start.toNat + entries.length - 1 = final.index.toNat := by
    have hlast := h.contiguous.toNat_last? hfinal
    change _ = seg.start.toNat + seg.records.length at hlast
    rw [h.length_records] at hlast
    omega
  have hinitial (initial : LogRecord) (hinitial : seg.index.first? = some initial) :
      seg.start = initial.index := by
    have hindices := h.contiguous
    obtain ⟨records, hrecords⟩ := List.head?_eq_some_iff.mp hinitial
    rw [SegmentIndex.Contiguous, hrecords, List.map_cons, Consecutive.cons_iff] at hindices
    exact UInt64.toNat_inj.mp hindices.1.symm
  have hend : (if corrupted = true then pure ()
      else demand "End/last index" indexText? last?
        (some (seg.start.toNat + entries.length - 1)) : Except Inconsistency Unit) = .ok () := by
    cases hcorrupted : corrupted with
    | true => rfl
    | false => exact demand_eq_ok (hlast hcorrupted)
  unfold checkConsistency
  refine exceptBind_eq_ok.mpr ⟨(), demand_eq_ok rfl, ?_⟩
  refine exceptBind_eq_ok.mpr ⟨(), demand_eq_ok hcount, ?_⟩
  refine exceptBind_eq_ok.mpr ⟨(), demand_eq_ok hnext, ?_⟩
  cases hfound : seg.index.last? with
  | none => exact hend
  | some final =>
    refine exceptBind_eq_ok.mpr ⟨(), demand_eq_ok (hfinal final hfound), ?_⟩
    cases hfound' : seg.index.first? with
    | none => exact hend
    | some initial => exact exceptBind_eq_ok.mpr ⟨(), demand_eq_ok (hinitial initial hfound'), hend⟩

/-- The last index is what it is expected to be, unless there are fewer entries than that. -/
theorem checkConsistency_of_range (h : seg.Holds entries) (hne : entries ≠ [])
    {range : SegmentRange} (hstart : seg.start = range.start) {last? : Option Nat}
    (hlast : last? = if range.isOpen then seg.last?.map UInt64.toNat else some range.last.toNat) :
    seg.checkConsistency range.start entries.length last?
      (entries.length ≠ (last?.map fun last => last + 1 - range.start.toNat).getD 0) = .ok () := by
  have hpos : 0 < entries.length := List.length_pos_iff.mpr hne
  rw [← hstart]
  refine checkConsistency_of_holds h hne fun hwhole => ?_
  have hcount : entries.length = (last?.map fun last => last + 1 - seg.start.toNat).getD 0 := by
    simpa using hwhole
  cases hopen : range.isOpen with
  | true =>
    have hnext := h.next hne
    have hlt : seg.start < seg.next := by
      rw [UInt64.lt_iff_toNat_lt, hnext]
      omega
    rw [hlast, hopen, if_pos rfl, Segment.last?, if_pos hlt]
    change some (seg.next - 1).toNat = _
    rw [toNat_sub_one (by omega), hnext]
  | false =>
    rw [hopen] at hlast
    change last? = some range.last.toNat at hlast
    rw [hlast] at hcount ⊢
    change entries.length = range.last.toNat + 1 - seg.start.toNat at hcount
    congr 1
    omega

end Segment

namespace Host

variable {host after : Host} {path : String} {length : Nat} {id : FileId} {cause : Failure}
  {context : SegmentContext} {range : SegmentRange} {keep : Bool}

/-! ## The file -/

theorem onDisk_eq_ok {α : Type} {m : Disk.Action α} {a : α} :
    onDisk m host = .ok a after ↔
      ∃ disk, m host.disk = .ok a disk ∧ after = { host with disk } := by
  unfold onDisk
  cases m host.disk <;> simp [eq_comm]

theorem onDisk_eq_error {α : Type} {m : Disk.Action α} : onDisk m host = .error cause after ↔
    ∃ why disk, m host.disk = .error why disk ∧ cause = .error (.io why) ∧
      after = { host with disk } := by
  unfold onDisk
  cases m host.disk <;> simp [eq_comm]

theorem removeIfThere_eq_ok (h : removeIfThere path host = .ok () after) :
    after.disk.find path = .error .notFound ∧
      Disk.ChangedOnlyAt path host.disk after.disk := by
  unfold removeIfThere at h
  split at h
  · next hremove =>
    cases h
    exact Disk.remove_eq_ok hremove
  · next hremove =>
    cases h
    obtain ⟨rfl, hnone⟩ := Disk.remove_eq_error hremove
    exact ⟨hnone rfl, .refl path _⟩
  · cases h

theorem removeIfThere_eq_error (h : removeIfThere path host = .error cause after) :
    after.disk = host.disk ∧ ¬ cause.IsInconsistent := by
  unfold removeIfThere at h
  split at h
  · cases h
  · cases h
  · next hremove =>
    cases h
    exact ⟨(Disk.remove_eq_error hremove).1, id⟩

theorem removeIfThere_of_file (h : host.disk.find path = .ok (.file id)) :
    ∃ after, removeIfThere path host = .ok () after := by
  obtain ⟨disk, hremove⟩ := Disk.remove_of_file h
  exact ⟨{ host with disk }, by simp only [removeIfThere, hremove]⟩

/-- A file that is long enough is cut, or has that length already. -/
theorem cutFile_of_file (h : host.disk.find path = .ok (.file id))
    (hlength : length ≤ (host.disk.content id).length)
    (hbound : length < (host.disk.content id).length → length < Disk.lengthLimit) :
    cutFile path length host = .ok () { host with
      disk := host.disk.setContent id ((host.disk.content id).take length) } := by
  rw [cutFile, get_bind, Disk.read_eq_ok.mpr ⟨id, h, rfl⟩]
  dsimp only
  by_cases hlonger : length < (host.disk.content id).length
  · rw [if_pos hlonger]
    simp only [onDisk, Disk.setLength_of_file h (hbound hlonger), Disk.resize_of_le hlength]
  · rw [if_neg hlonger, List.take_of_length_le (not_lt.mp hlonger), Disk.setContent_content]
    rfl

theorem cutFile_eq_ok (h : cutFile path length host = .ok () after) :
    ∃ id, host.disk.find path = .ok (.file id) ∧
      (length ≤ (host.disk.content id).length → after.disk =
        host.disk.setContent id ((host.disk.content id).take length)) := by
  rw [cutFile, get_bind] at h
  cases hread : host.disk.read path with
  | error cause =>
    rw [hread] at h
    exact absurd h throw_ne_ok
  | ok content =>
    obtain ⟨id, hfind, rfl⟩ := Disk.read_eq_ok.mp hread
    refine ⟨id, hfind, fun hlength => ?_⟩
    rw [hread] at h
    dsimp only at h
    split at h
    · obtain ⟨disk, hcut, rfl⟩ := onDisk_eq_ok.mp h
      obtain ⟨id', hfind', rfl⟩ := Disk.setLength_eq_ok hcut
      rw [hfind] at hfind'
      cases hfind'
      exact Disk.resize_of_le hlength
    · next hlonger =>
      obtain ⟨-, rfl⟩ := pure_eq_ok.mp h
      rw [List.take_of_length_le (not_lt.mp hlonger), Disk.setContent_content]

theorem cutFile_eq_error (h : cutFile path length host = .error cause after) :
    after.disk = host.disk ∧ ¬ cause.IsInconsistent := by
  rw [cutFile, get_bind] at h
  cases hread : host.disk.read path with
  | error cause =>
    rw [hread] at h
    cases h
    exact ⟨rfl, id⟩
  | ok content =>
    rw [hread] at h
    dsimp only at h
    split at h
    · obtain ⟨why, disk, hcut, rfl, rfl⟩ := onDisk_eq_error.mp h
      exact ⟨Disk.setLength_eq_error hcut, id⟩
    · cases h

def besidesDisk (host : Host) : RefCounts × Metrics × Sink := (host.refs, host.metrics, host.sink)

theorem onDisk_within {α : Type} (m : Disk.Action α) :
    Within besidesDisk (fun _ => True) (onDisk m) := by
  intro host
  unfold onDisk
  cases m host.disk with
  | ok a disk => rfl
  | error cause disk => exact ⟨rfl, trivial⟩

theorem removeIfThere_within (path : String) :
    Within besidesDisk (fun _ => True) (removeIfThere path) := by
  intro host
  unfold removeIfThere
  cases Disk.remove path host.disk with
  | ok _ disk => rfl
  | error cause disk => cases cause <;> first | rfl | exact ⟨rfl, trivial⟩

theorem cutFile_within (path : String) (length : Nat) :
    Within besidesDisk (fun _ => True) (cutFile path length) := by
  refine .bind .get fun host => ?_
  split
  · exact .throw trivial
  · exact .ite (onDisk_within _) (.pure _)

/-! ## The outcome of a reconstruction -/

theorem loadSegment_of_range {seg : Segment} (h : Segment.ofRange context range = .ok seg) :
    loadSegment context path range keep host =
      (withSegment seg (takeScan (host.disk.scan path range context.maxEntrySize) context.policy
          (keep || range.isOpen)) >>=
        reconcile path range (host.disk.scan path range context.maxEntrySize).entries.length)
      host := by
  unfold loadSegment
  simp only [h]
  rfl

theorem loadSegment_of_fault {fault : Fault} (h : Segment.ofRange context range = .error fault) :
    loadSegment context path range keep host = .error (.fault fault) host := by
  unfold loadSegment
  simp only [h]
  rfl

variable {seg : Segment} {entries : List LogEntry}

theorem orLetGo_of_ok {m : Step Unit} (h : m host = .ok () after) :
    orLetGo seg m host = .ok () after := by
  simp only [orLetGo, h]

theorem orLetGo_of_error {m : Step Unit} (h : m host = .error cause after) :
    orLetGo seg m host = .error cause { after with refs := seg.drop after.refs } := by
  simp only [orLetGo, h]

theorem reconcile_of_nothing :
    reconcile path range 0 seg host = (removeIfThere path >>= fun _ => pure none) host := rfl

/-- With entries there is nothing left to go wrong but the cut. -/
theorem reconcile_of_holds (h : seg.Holds entries) (hne : entries ≠ [])
    (hstart : seg.start = range.start) : reconcile path range entries.length seg host =
      (orLetGo seg (cutFile path seg.fileSize) >>= fun _ => pure (some seg)) host := by
  unfold reconcile
  rw [if_neg (by simpa using hne)]
  simp only [Segment.checkConsistency_of_range h hne hstart rfl, bind_pure_unit]

theorem reconcile_of_cut (h : seg.Holds entries) (hne : entries ≠ [])
    (hstart : seg.start = range.start) (hcut : cutFile path seg.fileSize host = .ok () after) :
    reconcile path range entries.length seg host = .ok (some seg) after := by
  rw [reconcile_of_holds h hne hstart, bind_of_ok (orLetGo_of_ok hcut)]
  rfl

theorem reconcile_of_no_cut (h : seg.Holds entries) (hne : entries ≠ [])
    (hstart : seg.start = range.start)
    (hcut : cutFile path seg.fileSize host = .error cause after) :
    reconcile path range entries.length seg host =
      .error cause { after with refs := seg.drop after.refs } := by
  rw [reconcile_of_holds h hne hstart, bind_of_error (orLetGo_of_error hcut)]

theorem reconcile_eq_some {seg' : Segment} (h : seg.Holds entries) (hne : entries ≠ [])
    (hstart : seg.start = range.start)
    (hreconcile : reconcile path range entries.length seg host = .ok (some seg') after) :
    seg' = seg ∧ cutFile path seg.fileSize host = .ok () after := by
  cases hcut : cutFile path seg.fileSize host with
  | error cause failed =>
    rw [reconcile_of_no_cut h hne hstart hcut] at hreconcile
    cases hreconcile
  | ok _ cut =>
    rw [reconcile_of_cut h hne hstart hcut] at hreconcile
    cases hreconcile
    exact ⟨rfl, rfl⟩

/-- A scan that was taken in leaves its entries in a segment of the range. -/
theorem loadSegment_of_run {s : Session} {n : Nat} (hseg : Segment.ofRange context range = .ok seg)
    (hrun : ((host.disk.scan path range context.maxEntrySize).entries.forM
      (takeRead (keep || range.isOpen))) { host with segment := seg } = .ok () s)
    (hsettle : (host.disk.scan path range context.maxEntrySize).settle context.policy = .ok n) :
    loadSegment context path range keep host =
      reconcile path range (host.disk.scan path range context.maxEntrySize).entries.length s.segment
        (counted (host.disk.scan path range context.maxEntrySize) s).toHost := by
  rw [loadSegment_of_range hseg,
    bind_of_ok (withSegment_of_ok (takeScan_of_ok hrun hsettle))]
  rfl

end Host

end SegmentedLog
