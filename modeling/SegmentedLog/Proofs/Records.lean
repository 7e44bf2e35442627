import SegmentedLog.Proofs.Consecutive
import SegmentedLog.Segment.Index
import SegmentedLog.Stepwise

/-! # The records of entries that lie one behind the other

A record tells where its entry starts, so the records of a run of entries are told by the offset of
the first and the space each one takes. An index whose records are consecutive takes exactly one
index next, and the record of it goes to the end.
-/

namespace SegmentedLog

open Stepwise

namespace LogRecord

variable {offset : Nat} {e : LogEntry} {entries more : List LogEntry}

/-- The records of entries whose frames lie one behind the other from `offset` on. -/
def layout (offset : Nat) : List LogEntry → List LogRecord
  | [] => []
  | e :: entries => of offset e :: layout (offset + e.footprint) entries

@[simp] theorem length_layout (offset : Nat) (entries : List LogEntry) :
    (layout offset entries).length = entries.length := by
  induction entries generalizing offset with
  | nil => rfl
  | cons e entries ih => simp [layout, ih]

theorem layout_append : layout offset (entries ++ more) =
    layout offset entries ++ layout (offset + (entries.map (·.footprint)).sum) more := by
  induction entries generalizing offset with
  | nil => simp [layout]
  | cons e entries ih => simp [layout, ih, Nat.add_assoc]

@[simp] theorem index_of : (of offset e).index = e.index := rfl

/-- What a record tells of an entry does not depend on where the entry lies. -/
theorem map_header_layout {α : Type} (f : EntryHeader → α) (offset : Nat)
    (entries : List LogEntry) :
    (layout offset entries).map (fun r => f r.header) = entries.map fun e => f (.of e) := by
  induction entries generalizing offset with
  | nil => rfl
  | cons e entries ih =>
    rw [layout, List.map_cons, List.map_cons, ih]
    rfl

theorem map_index_layout (offset : Nat) (entries : List LogEntry) :
    (layout offset entries).map (·.index) = entries.map (·.index) :=
  map_header_layout (·.key.index) offset entries

theorem map_key_layout (offset : Nat) (entries : List LogEntry) :
    (layout offset entries).map (·.key) = entries.map (·.key) :=
  map_header_layout (·.key) offset entries

theorem offset_le_of_mem_layout {r : LogRecord} (h : r ∈ layout offset entries) :
    r.offset ≤ offset + (entries.map (·.footprint)).sum := by
  induction entries generalizing offset with
  | nil => cases h
  | cons e entries ih =>
    rw [List.map_cons, List.sum_cons, ← Nat.add_assoc]
    rcases List.mem_cons.mp h with rfl | hrest
    · exact (Nat.le_add_right _ _).trans (Nat.le_add_right _ _)
    · exact ih hrest

theorem take_layout (offset k : Nat) (entries : List LogEntry) :
    (layout offset entries).take k = layout offset (entries.take k) := by
  induction entries generalizing offset k with
  | nil => simp [layout]
  | cons e entries ih =>
    cases k with
    | zero => rfl
    | succ k => simp [layout, ih]

/-- A record stands behind the space of all entries before its own. -/
theorem getElem?_layout (offset : Nat) (entries : List LogEntry) (k : Nat) :
    (layout offset entries)[k]? =
      entries[k]?.map (of (offset + ((entries.take k).map (·.footprint)).sum)) := by
  induction entries generalizing offset k with
  | nil => rfl
  | cons e entries ih =>
    cases k with
    | zero => simp [layout]
    | succ k => simp [layout, ih, Nat.add_assoc]

end LogRecord

namespace SegmentIndex

variable {ix ix' : SegmentIndex} {index : UInt64} {r : LogRecord} {records : List LogRecord}

theorem insertRecord_of_lt (h : ∀ r' ∈ records, r'.index < r.index) :
    insertRecord r records = (none, records ++ [r]) := by
  induction records with
  | nil => rfl
  | cons r' records ih =>
    have hlt := h r' (by simp)
    have hnot : ¬ r.index < r'.index := UInt64.lt_asymm hlt
    have hne : ¬ r.index = r'.index := by
      intro heq
      rw [heq] at hlt
      exact UInt64.lt_irrefl _ hlt
    rw [insertRecord, if_neg hnot, if_neg hne, ih fun r hr => h r (by simp [hr])]
    rfl

def Contiguous (ix : SegmentIndex) : Prop :=
  Consecutive ix.start.toNat (ix.records.map (·.index))

theorem Contiguous.toNat_last? (h : ix.Contiguous) {last : LogRecord}
    (hlast : ix.last? = some last) : last.index.toNat + 1 = ix.start.toNat + ix.records.length := by
  rw [last?, List.getLast?_eq_some_iff] at hlast
  rcases hlast with ⟨front, hfront⟩
  rw [Contiguous, hfront, List.map_append, Consecutive.append_iff] at h
  have hindex := (Consecutive.cons_iff.mp h.2).1
  rw [hfront, hindex, List.length_append, List.length_map]
  rfl

/-- Only the index right behind the last record is next. -/
theorem Contiguous.checkNext_eq_ok (h : ix.Contiguous) :
    ix.checkNext index = .ok () ↔ index.toNat = ix.start.toNat + ix.records.length := by
  unfold checkNext
  cases hlast : ix.last? with
  | none =>
    have hnil : ix.records = [] := List.getLast?_eq_none_iff.mp hlast
    rw [hnil, List.length_nil, Nat.add_zero, UInt64.toNat_inj]
    by_cases hindex : index = ix.start <;> simp [hindex]
  | some last =>
    rw [← h.toNat_last? hlast]
    dsimp only
    unfold nextIndex
    by_cases hbound : last.index.toNat + 1 < UInt64.size
    · have hnext : (last.index + 1).toNat = last.index.toNat + 1 := by
        rw [UInt64.toNat_add]
        exact Nat.mod_eq_of_lt hbound
      rw [if_pos hbound, ← hnext, UInt64.toNat_inj]
      by_cases hindex : index = last.index + 1 <;> simp [hindex]
    · have hlt := index.toNat_lt
      rw [if_neg hbound]
      constructor
      · intro hok
        cases hok
      · intro hindex
        rw [← hindex] at hbound
        exact absurd hlt hbound

theorem Contiguous.append_eq_ok (h : ix.Contiguous) {i : UInt64} :
    append r ix = .ok i ix' ↔ r.index.toNat = ix.start.toNat + ix.records.length ∧
      i = r.index ∧ ix' = { ix with records := ix.records ++ [r] } := by
  rw [← h.checkNext_eq_ok, append, get_bind]
  cases hcheck : ix.checkNext r.index with
  | error cause =>
    constructor
    · intro hok
      exact absurd hok throw_ne_ok
    · rintro ⟨hok, -⟩
      cases hok
  | ok u =>
    have hindex := h.checkNext_eq_ok.mp hcheck
    have hlt : ∀ r' ∈ ix.records, r'.index < r.index := by
      intro r' hr'
      have hmem := (h.mem_iff (i := r'.index)).mp (List.mem_map_of_mem hr')
      rw [UInt64.lt_iff_toNat_lt, hindex]
      rw [List.length_map] at hmem
      exact hmem.2
    simp only [insertRecord_of_lt hlt, set_bind]
    change EStateM.Result.ok r.index _ = _ ↔ _
    simp [eq_comm]

theorem contiguous_append (h : ix.Contiguous)
    (hnext : r.index.toNat = ix.start.toNat + ix.records.length) :
    Contiguous { ix with records := ix.records ++ [r] } := by
  rw [Contiguous, List.map_append, Consecutive.append_iff, List.length_map]
  exact ⟨h, Consecutive.cons_iff.mpr ⟨hnext, Consecutive.nil⟩⟩

theorem contiguous_dropLast (h : ix.Contiguous) :
    Contiguous { ix with records := ix.records.dropLast } := by
  rw [Contiguous, List.dropLast_eq_take, List.map_take]
  exact h.take _

/-- A record that is not the next one does not change the index. -/
theorem Contiguous.append_eq_error (h : ix.Contiguous)
    (hnext : r.index.toNat ≠ ix.start.toNat + ix.records.length) :
    ∃ cause, append r ix = .error cause ix := by
  rw [append, get_bind]
  cases hcheck : ix.checkNext r.index with
  | error cause => exact ⟨cause, rfl⟩
  | ok u => exact absurd (h.checkNext_eq_ok.mp hcheck) hnext

end SegmentIndex

end SegmentedLog
