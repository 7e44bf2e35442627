import SegmentedLog.Proofs.Records

/-! # Histories of an index

However an index is used, also against the rules, its records stay consecutive from its start on,
for a use that breaks a rule leaves it as it was. So it is a stack: on it are the records that were
appended and neither taken off nor cleared away since, and the last one comes off first.
-/

namespace SegmentedLog.SegmentIndex

open Stepwise

inductive Use where
  | append (r : LogRecord)
  | removeLast
  | clear

/-- The index that a use leaves, also one that breaks a rule. -/
def after (ix : SegmentIndex) : Use → SegmentIndex
  | .append r => left (append r) ix
  | .removeLast => left removeLast ix
  | .clear => ix.clear

def run (start : UInt64) (uses : List Use) : SegmentIndex := uses.foldl after { start }

/-- Whether a record with the index goes right behind the last one. The largest index has none
behind it. -/
def Next (ix : SegmentIndex) (index : UInt64) : Prop :=
  match ix.last? with
  | none => index = ix.start
  | some last => index.toNat = last.index.toNat + 1

variable {ix ix' : SegmentIndex} {r : LogRecord} {start index : UInt64} {uses : List Use}
  {records : List LogRecord}

/-! ## One use -/

theorem Contiguous.next_iff (h : ix.Contiguous) :
    ix.Next index ↔ index.toNat = ix.start.toNat + ix.records.length := by
  unfold Next
  cases hlast : ix.last? with
  | none =>
    have hnil : ix.records = [] := List.getLast?_eq_none_iff.mp hlast
    rw [hnil, List.length_nil, Nat.add_zero, UInt64.toNat_inj]
  | some last => rw [← h.toNat_last? hlast]

/-- A record goes to the end or nowhere, and there never stands another one in its place. -/
theorem Contiguous.append_cases (h : ix.Contiguous) (r : LogRecord) :
    (ix.Next r.index ∧ append r ix = .ok r.index { ix with records := ix.records ++ [r] }) ∨
      ¬ ix.Next r.index ∧ ∃ cause, append r ix = .error cause ix ∧
        ∀ i, cause ≠ .duplicateRecord i := by
  by_cases hnext : ix.Next r.index
  · exact .inl ⟨hnext, h.append_eq_ok.mpr ⟨h.next_iff.mp hnext, rfl, rfl⟩⟩
  · refine .inr ⟨hnext, ?_⟩
    rw [append, get_bind]
    cases hcheck : ix.checkNext r.index with
    | ok u => exact absurd (h.next_iff.mpr (h.checkNext_eq_ok.mp hcheck)) hnext
    | error cause =>
      refine ⟨cause, rfl, ?_⟩
      rintro i rfl
      unfold checkNext at hcheck
      split at hcheck
      · split at hcheck <;> cases hcheck
      · split at hcheck
        · next hoverflow =>
          cases hcheck
          unfold nextIndex at hoverflow
          split at hoverflow <;> cases hoverflow
        · split at hcheck <;> cases hcheck

theorem removeLast_of_nil (h : ix.records = []) : removeLast ix = .error .emptyIndex ix := by
  rw [removeLast, get_bind, last?, h]
  rfl

theorem removeLast_of_concat (h : ix.records = records ++ [r]) :
    removeLast ix = .ok r { ix with records } := by
  rw [removeLast, get_bind, last?, h, List.getLast?_concat]
  dsimp only
  rw [set_bind, List.dropLast_concat]
  rfl

theorem after_append (h : ix.Contiguous) (r : LogRecord) :
    (ix.Next r.index ∧ ix.after (.append r) = { ix with records := ix.records ++ [r] }) ∨
      ¬ ix.Next r.index ∧ ix.after (.append r) = ix := by
  rcases h.append_cases r with ⟨hnext, happend⟩ | ⟨hnext, cause, happend, -⟩
  · exact .inl ⟨hnext, by simp only [after, left, happend]⟩
  · exact .inr ⟨hnext, by simp only [after, left, happend]⟩

theorem after_removeLast (ix : SegmentIndex) :
    ix.after .removeLast = { ix with records := ix.records.dropLast } := by
  rcases List.eq_nil_or_concat' ix.records with hnil | ⟨records, r, hconcat⟩
  · simp only [after, left, removeLast_of_nil hnil]
    rw [hnil, List.dropLast_nil, ← hnil]
  · simp only [after, left, removeLast_of_concat hconcat]
    rw [hconcat, List.dropLast_concat]

theorem start_after (h : ix.Contiguous) (use : Use) : (ix.after use).start = ix.start := by
  cases use with
  | append r => rcases after_append h r with ⟨-, hafter⟩ | ⟨-, hafter⟩ <;> rw [hafter]
  | removeLast => rw [after_removeLast]
  | clear => rfl

/-- A use keeps the records consecutive, whether or not it breaks a rule. -/
theorem Contiguous.after (h : ix.Contiguous) (use : Use) : (ix.after use).Contiguous := by
  cases use with
  | append r =>
    rcases after_append h r with ⟨hnext, hafter⟩ | ⟨-, hafter⟩
    · rw [hafter]
      exact contiguous_append h (h.next_iff.mp hnext)
    · rw [hafter]
      exact h
  | removeLast =>
    rw [after_removeLast]
    exact contiguous_dropLast h
  | clear => exact Consecutive.nil

/-! ## Any number of uses -/

theorem run_concat (start : UInt64) (uses : List Use) (use : Use) :
    run start (uses ++ [use]) = (run start uses).after use := List.foldl_concat ..

theorem contiguous_run (start : UInt64) (uses : List Use) :
    (run start uses).Contiguous ∧ (run start uses).start = start := by
  induction uses using List.reverseRecOn with
  | nil => exact ⟨Consecutive.nil, rfl⟩
  | append_singleton uses use ih =>
    rw [run_concat]
    exact ⟨ih.1.after use, (start_after ih.1 use).trans ih.2⟩

theorem Contiguous.get?_eq (h : ix.Contiguous) (i : UInt64) :
    ix.get? i = if ix.start ≤ i then ix.records[i.toNat - ix.start.toNat]? else none := by
  have hindex {k : Nat} (hk : k < ix.records.length) :
      ix.records[k].index.toNat = ix.start.toNat + k := by
    have hmap := h.toNat_getElem (k := k) (by rwa [List.length_map])
    rwa [List.getElem_map] at hmap
  simp only [UInt64.le_iff_toNat_le]
  cases hget : ix.get? i with
  | none =>
    have hnone := List.find?_eq_none.mp hget
    split
    · next hle =>
      refine (List.getElem?_eq_none (not_lt.mp fun hlt => ?_)).symm
      have hthere := hindex hlt
      refine hnone _ (List.getElem_mem hlt) (decide_eq_true (UInt64.toNat_inj.mp ?_))
      omega
    · rfl
  | some r =>
    obtain ⟨k, hk, rfl⟩ := List.mem_iff_getElem.mp (List.mem_of_find?_eq_some hget)
    have hi : ix.records[k].index = i := by simpa using List.find?_some hget
    have hthere := hindex hk
    rw [hi] at hthere
    rw [if_pos (by omega), hthere, Nat.add_sub_cancel_left, List.getElem?_eq_getElem hk]

/-- What is on an index was appended to what is below it, and has not been taken off since. -/
theorem exists_append_of_prefix (h : records ++ [r] <+: (run start uses).records) :
    ∃ before later, uses = before ++ .append r :: later ∧
      run start before = { start, records } ∧ (run start before).Next r.index ∧
      ∀ part, part <+: later →
        records ++ [r] <+: (run start (before ++ .append r :: part)).records := by
  induction uses using List.reverseRecOn with
  | nil =>
    have hnil := List.prefix_nil.mp h
    simp at hnil
  | append_singleton uses use ih =>
    obtain ⟨hcontiguous, hstart⟩ := contiguous_run start uses
    have hearlier (hkept : records ++ [r] <+: (run start uses).records) :
        ∃ before later, uses ++ [use] = before ++ .append r :: later ∧
          run start before = { start, records } ∧ (run start before).Next r.index ∧
          ∀ part, part <+: later →
            records ++ [r] <+: (run start (before ++ .append r :: part)).records := by
      obtain ⟨before, later, rfl, hbefore, hnext, hthere⟩ := ih hkept
      refine ⟨before, later ++ [use], by simp, hbefore, hnext, fun part hpart => ?_⟩
      rcases List.prefix_concat_iff.mp hpart with rfl | hpart
      · rw [← List.cons_append, ← List.append_assoc]
        exact h
      · exact hthere part hpart
    rw [run_concat] at h
    cases use with
    | append r' =>
      rcases after_append hcontiguous r' with ⟨hnext, hafter⟩ | ⟨-, hafter⟩
      · rw [hafter] at h
        rcases List.prefix_concat_iff.mp h with hlast | hkept
        · obtain ⟨hrecords, hr⟩ := List.append_inj' hlast rfl
          cases hr
          refine ⟨uses, [], rfl, ?_, hnext, fun part hpart => ?_⟩
          · show SegmentIndex.mk (run start uses).start (run start uses).records = _
            rw [hstart, ← hrecords]
          · rw [List.prefix_nil.mp hpart, run_concat, hafter, hrecords]
        · exact hearlier hkept
      · rw [hafter] at h
        exact hearlier h
    | removeLast =>
      rw [after_removeLast] at h
      exact hearlier (h.trans (List.dropLast_prefix _))
    | clear =>
      have hnil : records ++ [r] = [] := List.prefix_nil.mp h
      simp at hnil

/-- Whatever was done to a new index, also against the rules, its records are consecutive from its
start on and are found by their indices. A record is appended exactly if it goes right behind the
last one, and the last one is taken off exactly if there is one: then the latest append that is
still in place is undone. Whatever is refused leaves the index as it was. -/
theorem run_is_stack (start : UInt64) (uses : List Use) : ∃ ix, run start uses = ix ∧
    Consecutive start.toNat (ix.records.map (·.index)) ∧
    (∀ i, ((ix.get? i).isSome ↔ start.toNat ≤ i.toNat ∧ i.toNat < start.toNat + ix.size) ∧
      (start.toNat ≤ i.toNat → ix.get? i = ix.records[i.toNat - start.toNat]?)) ∧
    ix.first? = ix.records[0]? ∧ ix.last? = ix.records[ix.size - 1]? ∧
    (∀ r, match append r ix with
      | .ok i ix' => ix.Next r.index ∧ i = r.index ∧ ix' = { ix with records := ix.records ++ [r] }
      | .error cause ix' => ¬ ix.Next r.index ∧ ix' = ix ∧ ∀ i, cause ≠ .duplicateRecord i) ∧
    match removeLast ix with
      | .error cause ix' => ix.records = [] ∧ cause = .emptyIndex ∧ ix' = ix
      | .ok r ix' => ix.records = ix'.records ++ [r] ∧
        ∃ before later, uses = before ++ .append r :: later ∧ run start before = ix' ∧
          append r ix' = .ok r.index { ix' with records := ix'.records ++ [r] } ∧
          ∀ part, part <+: later →
            ix'.records ++ [r] <+: (run start (before ++ .append r :: part)).records := by
  obtain ⟨hcontiguous, hstart⟩ := contiguous_run start uses
  have hprovenance {records : List LogRecord} {r : LogRecord}
      (hconcat : (run start uses).records = records ++ [r]) :=
    exists_append_of_prefix (show records ++ [r] <+: _ by rw [hconcat])
  generalize run start uses = ix at *
  refine ⟨ix, rfl, hstart ▸ hcontiguous, fun i => ?_, List.head?_eq_getElem?,
    List.getLast?_eq_getElem?, fun r => ?_, ?_⟩
  · have hget := hcontiguous.get?_eq i
    simp only [UInt64.le_iff_toNat_le, hstart] at hget
    by_cases hle : start.toNat ≤ i.toNat
    · rw [if_pos hle] at hget
      refine ⟨?_, fun _ => hget⟩
      rw [hget, isSome_getElem?, size]
      omega
    · rw [if_neg hle] at hget
      simp [hget, hle]
  · rcases hcontiguous.append_cases r with ⟨hnext, happend⟩ | ⟨hnext, cause, happend, hcause⟩
    · rw [happend]
      exact ⟨hnext, rfl, rfl⟩
    · rw [happend]
      exact ⟨hnext, rfl, hcause⟩
  · rcases List.eq_nil_or_concat' ix.records with hnil | ⟨records, r, hconcat⟩
    · rw [removeLast_of_nil hnil]
      exact ⟨hnil, rfl, rfl⟩
    · rw [removeLast_of_concat hconcat]
      obtain ⟨before, later, huses, hbefore, hnext, hthere⟩ := hprovenance hconcat
      refine ⟨hconcat, before, later, huses, by rw [hbefore, hstart], ?_, hthere⟩
      have hcontiguous' := (contiguous_run start before).1
      rw [hbefore] at hcontiguous' hnext
      rw [hstart]
      exact hcontiguous'.append_eq_ok.mpr ⟨hcontiguous'.next_iff.mp hnext, rfl, rfl⟩

end SegmentedLog.SegmentIndex
