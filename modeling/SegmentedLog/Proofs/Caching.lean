import Mathlib
import SegmentedLog.Segment.Cache
import SegmentedLog.Stepwise

/-! # What a cache holds under a key

Putting an entry in changes what is held under its key and nothing else. A reference that was just
made can be retained, so the entry it refers to does get in while the cache is open.
-/

namespace SegmentedLog

open Stepwise

namespace RefCounts

variable {refs : RefCounts} {e : LogEntry}

theorem retain?_wrap (refs : RefCounts) (e : LogEntry) :
    ∃ refs', (refs.wrap e).2.retain? (refs.wrap e).1 = some refs' := by
  have hcount : (refs.wrap e).2.count (refs.wrap e).1 = 1 := by simp [wrap, count]
  unfold retain?
  rw [if_neg (by omega)]
  exact ⟨_, rfl⟩

end RefCounts

theorem LogEntry.sizeFor_eq_ok {e : LogEntry} {purpose : SizePurpose} {size : Nat} :
    e.sizeFor purpose = .ok size ↔ purpose.Admits e ∧ size = e.footprint := by
  unfold sizeFor
  split <;> simp_all [eq_comm]

namespace Cache

variable {c c' : Cache} {refs refs' : RefCounts} {key other : TermIndex} {r : EntryRef}
  {purpose : SizePurpose}

theorem slots_of_isClosed (h : c.isClosed = true) : c.slots = [] := by
  have hcontents : c.contents = .closed := by simpa [isClosed] using h
  simp [slots, hcontents]

theorem find?_filter_ne (slots : List Slot) (key other : TermIndex) :
    (slots.filter (·.key ≠ key)).find? (·.key = other) =
      if other = key then none else slots.find? (·.key = other) := by
  induction slots with
  | nil => simp
  | cons slot slots ih =>
    by_cases hslot : slot.key = key
    · rw [List.filter_cons_of_neg (by simp [hslot]), ih]
      by_cases hother : other = key
      · simp [hother]
      · simp [hother, hslot, Ne.symm hother]
    · rw [List.filter_cons_of_pos (by simp [hslot])]
      by_cases hfound : slot.key = other
      · have hother : ¬ other = key := by
          rw [← hfound]
          exact hslot
        simp [hfound, hother]
      · simp only [List.find?_cons, hfound, decide_false, ih]

theorem find?_remove : (c.remove refs key).1.find? other =
    if other = key then none else c.find? other := by
  unfold remove
  cases hfound : c.find? key with
  | none =>
    by_cases hother : other = key
    · simp [hother, hfound]
    · simp [hother]
  | some slot => exact find?_filter_ne c.slots key other

theorem slots_remove : (c.remove refs key).1.slots = c.slots.filter (·.key ≠ key) := by
  unfold remove
  cases hfound : c.find? key with
  | none =>
    refine (List.filter_eq_self.mpr fun slot hslot => ?_).symm
    simpa using List.find?_eq_none.mp hfound slot hslot
  | some slot => rfl

theorem isClosed_remove : (c.remove refs key).1.isClosed = c.isClosed := by
  unfold remove
  cases hfound : c.find? key with
  | none => rfl
  | some slot =>
    cases hclosed : c.isClosed with
    | true => simp [find?, slots_of_isClosed hclosed] at hfound
    | false => rfl

def removeAll (c : Cache) (refs : RefCounts) (keys : List TermIndex) : Cache × RefCounts :=
  keys.foldl (fun (c, refs) key => c.remove refs key) (c, refs)

theorem removeAll_append (c : Cache) (refs : RefCounts) (keys more : List TermIndex) :
    c.removeAll refs (keys ++ more) =
      (c.removeAll refs keys).1.removeAll (c.removeAll refs keys).2 more :=
  List.foldl_append

theorem find?_removeAll {keys : List TermIndex} : (c.removeAll refs keys).1.find? other =
    if other ∈ keys then none else c.find? other := by
  induction keys generalizing c refs with
  | nil => simp [removeAll]
  | cons key keys ih =>
    change ((c.remove refs key).1.removeAll (c.remove refs key).2 keys).1.find? other = _
    rw [ih, find?_remove]
    by_cases hother : other = key
    · simp [hother]
    · simp [hother]

def placed (c : Cache) (refs : RefCounts) (key : TermIndex) (r : EntryRef) : Cache :=
  let rest := (c.remove refs key).1
  { contents := .active (⟨key, r, r.entry.footprint⟩ :: rest.slots)
    total := rest.total + UInt64.ofNat r.entry.footprint }

theorem find?_placed : (c.placed refs key r).find? other =
    if other = key then some ⟨key, r, r.entry.footprint⟩ else c.find? other := by
  have hrest : (c.remove refs key).1.find? other = _ := find?_remove
  simp only [find?] at hrest
  change List.find? (fun slot => slot.key = other) (_ :: (c.remove refs key).1.slots) = _
  rw [List.find?_cons, hrest]
  by_cases hother : other = key
  · simp [hother]
  · simp [hother, Ne.symm hother, find?]

/-- An entry that may be measured is put in, unless the cache is closed or the entry is released. -/
theorem put_eq_ok : c.put refs key r purpose = .ok (c', refs') ↔ purpose.Admits r.entry ∧
    ((c.isClosed = true ∨ refs.retain? r = none) ∧ c' = c ∧ refs' = refs ∨
      ∃ retained, c.isClosed = false ∧ refs.retain? r = some retained ∧
        c' = c.placed retained key r ∧ refs' = (c.remove retained key).2) := by
  by_cases hadmits : purpose.Admits r.entry
  · have hsize : r.entry.sizeFor purpose = .ok r.entry.footprint := if_pos hadmits
    simp only [put, hsize, bind, Except.bind]
    cases hcontents : c.contents with
    | closed => simp [isClosed, hcontents, hadmits, eq_comm]
    | active slots =>
      cases hretain : refs.retain? r with
      | none => simp [isClosed, hcontents, hadmits, eq_comm]
      | some retained => simp [isClosed, hcontents, hadmits, placed, eq_comm]
  · constructor
    · intro h
      obtain ⟨size, hsize, -⟩ := exceptBind_eq_ok.mp h
      exact absurd (LogEntry.sizeFor_eq_ok.mp hsize).1 hadmits
    · rintro ⟨h, -⟩
      exact absurd h hadmits

theorem put_of_not_admits (h : ¬ purpose.Admits r.entry) :
    c.put refs key r purpose = .error (.stateData purpose r.entry.key) :=
  exceptBind_eq_error.mpr (.inl (if_neg h))

/-- Whether an entry gets in is a matter of its size alone. -/
theorem put_of_admits (c : Cache) (refs : RefCounts) (key : TermIndex)
    (h : purpose.Admits r.entry) :
    ∃ c' after, c.put refs key r purpose = .ok (c', after) := by
  cases hclosed : c.isClosed with
  | true => exact ⟨c, refs, put_eq_ok.mpr ⟨h, .inl ⟨.inl hclosed, rfl, rfl⟩⟩⟩
  | false =>
    cases hretain : refs.retain? r with
    | none => exact ⟨c, refs, put_eq_ok.mpr ⟨h, .inl ⟨.inr hretain, rfl, rfl⟩⟩⟩
    | some retained =>
      exact ⟨_, _, put_eq_ok.mpr ⟨h, .inr ⟨retained, hclosed, hretain, rfl, rfl⟩⟩⟩

/-- The entry that was put in is held under its key from then on, and the others as before. -/
theorem find?_put (hopen : c.isClosed = false) (hretain : refs.retain? r = some refs')
    {after : RefCounts} (h : c.put refs key r purpose = .ok (c', after)) :
    c'.isClosed = false ∧ ∀ other, (c'.find? other).map (·.ref) =
      if other = key then some r else (c.find? other).map (·.ref) := by
  rcases put_eq_ok.mp h with ⟨-, ⟨hclosed | hnone, -⟩ | ⟨retained, -, -, rfl, -⟩⟩
  · rw [hopen] at hclosed
    cases hclosed
  · cases hretain.symm.trans hnone
  · refine ⟨by simp [isClosed, placed], fun other => ?_⟩
    rw [find?_placed]
    split <;> rfl

/-- Whether a cache is open and holds these entries, each under its key. -/
structure Shows (c : Cache) (entries : List LogEntry) : Prop where
  isOpen : c.isClosed = false
  find? : ∀ key, (c.find? key).map (·.ref.entry) = entries.find? (·.key = key)

variable {entries : List LogEntry}

theorem shows_empty : Shows {} [] := ⟨rfl, fun _ => rfl⟩

/-- An entry under a new key is held besides the others. -/
theorem Shows.put (hc : c.Shows entries) (hnew : ∀ e ∈ entries, e.key ≠ r.entry.key)
    (hretain : refs.retain? r = some refs') {after : RefCounts}
    (h : c.put refs r.entry.key r purpose = .ok (c', after)) : c'.Shows (entries ++ [r.entry]) := by
  obtain ⟨hopen, hfind⟩ := find?_put hc.isOpen hretain h
  refine ⟨hopen, fun other => ?_⟩
  have hentry : (c'.find? other).map (·.ref.entry) =
      ((c'.find? other).map (·.ref)).map (·.entry) := by
    rw [Option.map_map]
    rfl
  rw [hentry, hfind, List.find?_append]
  by_cases hother : other = r.entry.key
  · have hnone : entries.find? (·.key = other) = none := by
      rw [List.find?_eq_none]
      intro e he
      simpa [hother] using hnew e he
    rw [hnone, if_pos hother]
    simp [hother]
  · rw [if_neg hother, Option.map_map]
    change (c.find? other).map (·.ref.entry) = _
    rw [hc.find? other]
    simp [Ne.symm hother]

/-! ## What may be read for an entry -/

end Cache

/-- Whether an entry may be read as `e'`: as itself, or as it is in a file. -/
def LogEntry.ReadsAs (e e' : LogEntry) : Prop := e' = e ∨ e' = e.stripped

theorem LogEntry.ReadsAs.key {e e' : LogEntry} (h : e.ReadsAs e') : e'.key = e.key := by
  rcases h with rfl | rfl <;> rfl

namespace Cache

variable {c c' : Cache} {refs after : RefCounts} {r : EntryRef} {purpose : SizePurpose}
  {entries more : List LogEntry} {e : LogEntry} {key : TermIndex}

/-- Whether what a cache holds under a key is one of some entries with that key, or may be read for
it. -/
def Recalls (c : Cache) (entries : List LogEntry) : Prop :=
  ∀ key r, (c.find? key).map (·.ref) = some r → ∃ e ∈ entries, e.key = key ∧ e.ReadsAs r.entry

theorem Shows.recalls (h : c.Shows entries) : c.Recalls entries := by
  intro key r hfound
  have hentry := h.find? key
  obtain ⟨slot, hslot, rfl⟩ := Option.map_eq_some_iff.mp hfound
  rw [hslot] at hentry
  have hmem := List.mem_of_find?_eq_some hentry.symm
  have hkey := List.find?_some hentry.symm
  exact ⟨slot.ref.entry, hmem, of_decide_eq_true hkey, .inl rfl⟩

theorem recalls_empty (entries : List LogEntry) : Recalls {} entries := nofun

theorem Recalls.mono (h : c.Recalls entries) (hsub : entries ⊆ more) : c.Recalls more := by
  intro key r hfound
  obtain ⟨e, he, hread⟩ := h key r hfound
  exact ⟨e, hsub he, hread⟩

theorem Recalls.put (h : c.Recalls entries) (he : e ∈ entries) (hread : e.ReadsAs r.entry)
    (hput : c.put refs r.entry.key r purpose = .ok (c', after)) : c'.Recalls entries := by
  rcases put_eq_ok.mp hput with ⟨-, ⟨-, rfl, -⟩ | ⟨retained, -, -, rfl, -⟩⟩
  · exact h
  · intro key r' hfound
    rw [find?_placed] at hfound
    split at hfound
    · next hkey =>
      cases hfound
      exact ⟨e, he, hread.key.symm.trans hkey.symm, hread⟩
    · exact h key r' hfound

theorem slots_evict : (c.evict refs).1.slots = [] := by
  unfold evict
  cases hcontents : c.contents with
  | closed => simp [slots, hcontents]
  | active => rfl

theorem slots_close : (c.close refs).1.slots = [] := by
  unfold close
  cases hcontents : c.contents with
  | closed => simp [slots, hcontents]
  | active => rfl

theorem key_notMem_evict (key : TermIndex) : key ∉ (c.evict refs).1.slots.map (·.key) := by
  rw [slots_evict]
  nofun

theorem key_notMem_close (key : TermIndex) : key ∉ (c.close refs).1.slots.map (·.key) := by
  rw [slots_close]
  nofun

theorem find?_evict (key : TermIndex) : (c.evict refs).1.find? key = none := by
  rw [find?, slots_evict]
  rfl

theorem find?_close (key : TermIndex) : (c.close refs).1.find? key = none := by
  rw [find?, slots_close]
  rfl

theorem isClosed_evict : (c.evict refs).1.isClosed = c.isClosed := by
  unfold evict isClosed
  cases hcontents : c.contents with
  | closed => simp [hcontents]
  | active slots => rfl

theorem isClosed_close : (c.close refs).1.isClosed = true := by
  unfold close isClosed
  cases hcontents : c.contents with
  | closed => simp [hcontents]
  | active slots => rfl

theorem recalls_evict (entries : List LogEntry) : (c.evict refs).1.Recalls entries := by
  intro key r hfound
  rw [find?_evict] at hfound
  cases hfound

theorem Recalls.get? (h : c.Recalls entries) (hget : c.get? refs key = some (r, after)) :
    ∃ e ∈ entries, e.key = key ∧ e.ReadsAs r.entry := by
  obtain ⟨slot, hslot, hrest⟩ := Option.bind_eq_some_iff.mp hget
  obtain ⟨refs', -, hresult⟩ := Option.bind_eq_some_iff.mp hrest
  cases hresult
  exact h key slot.ref (by rw [hslot]; rfl)

end Cache

end SegmentedLog
