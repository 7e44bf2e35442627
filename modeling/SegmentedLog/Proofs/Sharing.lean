import SegmentedLog.Proofs.Caching

/-! # References and what holds them

Every reference that is held counts once, so the counts agree with a list of the references held.
A cache holds one in each of its slots, besides those held elsewhere; what it takes and gives up in
an operation is what enters and leaves that list.
-/

namespace SegmentedLog

open Stepwise

namespace RefCounts

variable {refs refs' : RefCounts} {held held' rs : List EntryRef} {r other : EntryRef}

/-- Whether each shared entry is counted as often as a reference to it is held. -/
def Balances (refs : RefCounts) (held : List EntryRef) : Prop :=
  ∀ r, refs.count r = held.countP (·.Same r)

theorem balances_empty : Balances {} [] := by
  intro r
  simp [count]

theorem Balances.perm (h : refs.Balances held) (hperm : held.Perm held') :
    refs.Balances held' := fun r => (h r).trans (hperm.countP_eq _)

theorem Balances.pos (h : refs.Balances held) (hr : r ∈ held) : 0 < refs.count r := by
  rw [h r]
  exact List.countP_pos_iff.mpr ⟨r, hr, decide_eq_true rfl⟩

theorem count_wrap (refs : RefCounts) (e : LogEntry) (other : EntryRef) :
    (refs.wrap e).2.count other =
      refs.count other + if (refs.wrap e).1.Same other then 1 else 0 := by
  by_cases hsame : (refs.wrap e).1.Same other
  · have hnumber : refs.counts.size = other.number := hsame
    rw [if_pos hsame]
    simp [count, wrap, ← hnumber]
  · have hnumber : ¬ other.number = refs.counts.size := Ne.symm hsame
    rw [if_neg hsame]
    simp [count, wrap, Array.getElem?_push, hnumber]

theorem count_modify (h : 0 < refs.count r) (f : Nat → Nat) (other : EntryRef) :
    count ⟨refs.counts.modify r.number f⟩ other =
      if r.Same other then f (refs.count other) else refs.count other := by
  by_cases hsame : r.Same other
  · have hnumber : r.number = other.number := hsame
    have hlt : other.number < refs.counts.size := by
      by_contra hge
      simp [count, hnumber, hge] at h
    rw [if_pos hsame]
    simp [count, hnumber, hlt, Array.getElem_modify]
  · have hnumber : ¬ r.number = other.number := hsame
    rw [if_neg hsame]
    simp [count, Array.getElem?_modify, hnumber]

theorem count_of_retain? (h : refs.retain? r = some refs') (other : EntryRef) :
    refs'.count other = refs.count other + if r.Same other then 1 else 0 := by
  by_cases hcount : refs.count r = 0
  · simp [retain?, hcount] at h
  · obtain rfl : _ = refs' := by simpa [retain?, hcount] using h
    rw [count_modify (Nat.pos_of_ne_zero hcount)]
    split <;> rfl

theorem count_release (h : 0 < refs.count r) (other : EntryRef) :
    (refs.release r).count other + (if r.Same other then 1 else 0) = refs.count other := by
  rw [release, count_modify h]
  split
  · next hsame =>
    have hpos : 0 < refs.count other := by
      rw [count, ← show r.number = other.number from hsame]
      exact h
    rw [if_neg (by omega), Nat.sub_add_cancel hpos]
  · rfl

theorem Balances.wrap (h : refs.Balances held) (e : LogEntry) :
    (refs.wrap e).2.Balances ((refs.wrap e).1 :: held) := by
  intro other
  rw [count_wrap, h other, List.countP_cons]
  simp only [decide_eq_true_eq]

theorem Balances.of_retain? (h : refs.Balances held) (hretain : refs.retain? r = some refs') :
    refs'.Balances (r :: held) := by
  intro other
  rw [count_of_retain? hretain, h other, List.countP_cons]
  simp only [decide_eq_true_eq]

theorem Balances.retain? (h : refs.Balances held) (hr : r ∈ held) :
    ∃ refs', refs.retain? r = some refs' := by
  have hpos := h.pos hr
  unfold RefCounts.retain?
  rw [if_neg (by omega)]
  exact ⟨_, rfl⟩

theorem Balances.release (h : refs.Balances (r :: held)) : (refs.release r).Balances held := by
  intro other
  have hbefore := h other
  rw [← count_release (h.pos (List.mem_cons_self ..)) other, List.countP_cons] at hbefore
  simp only [decide_eq_true_eq] at hbefore
  omega

theorem Balances.releaseAll (h : refs.Balances (rs ++ held)) :
    (refs.releaseAll rs).Balances held := by
  induction rs generalizing refs with
  | nil => exact h
  | cons r rs ih => exact ih h.release

end RefCounts

namespace Cache

variable {c c' : Cache} {refs refs' : RefCounts} {key : TermIndex} {r : EntryRef} {slot : Slot}
  {purpose : SizePurpose} {others others' : List EntryRef}

/-- Whether a cache has one slot for a key, and the references it holds and the others are all that
are counted. -/
structure Balanced (c : Cache) (refs : RefCounts) (others : List EntryRef) : Prop where
  keys : (c.slots.map (·.key)).Nodup
  balances : refs.Balances (c.refsHeld ++ others)

theorem balanced_empty (h : refs.Balances others) : Balanced {} refs others := ⟨.nil, h⟩

theorem Balanced.perm (h : c.Balanced refs others) (hperm : others.Perm others') :
    c.Balanced refs others' :=
  ⟨h.keys, h.balances.perm (hperm.append_left _)⟩

theorem Balanced.cons (h : c.Balanced refs others)
    (hmore : ∀ held, refs.Balances held → refs'.Balances (r :: held)) :
    c.Balanced refs' (r :: others) :=
  ⟨h.keys, (hmore _ h.balances).perm List.perm_middle.symm⟩

theorem Balanced.release (h : c.Balanced refs (r :: others)) :
    c.Balanced (refs.release r) others :=
  ⟨h.keys, (h.balances.perm List.perm_middle).release⟩

theorem Balanced.releaseAll {rs : List EntryRef} (h : c.Balanced refs (rs ++ others)) :
    c.Balanced (refs.releaseAll rs) others := by
  refine ⟨h.keys, RefCounts.Balances.releaseAll (h.balances.perm ?_)⟩
  rw [← List.append_assoc, ← List.append_assoc]
  exact List.perm_append_comm.append_right others

theorem perm_of_find? {slots : List Slot} (hkeys : (slots.map (·.key)).Nodup)
    (h : slots.find? (·.key = key) = some slot) :
    slots.Perm (slot :: slots.filter (·.key ≠ key)) := by
  induction slots with
  | nil => cases h
  | cons first slots ih =>
    rw [List.map_cons, List.nodup_cons] at hkeys
    by_cases hfirst : first.key = key
    · rw [List.find?_cons_of_pos (by simpa using hfirst)] at h
      cases h
      have hrest : slots.filter (·.key ≠ key) = slots := by
        rw [List.filter_eq_self]
        intro other hother
        refine decide_eq_true fun heq => hkeys.1 ?_
        rw [hfirst, ← heq]
        exact List.mem_map_of_mem hother
      rw [List.filter_cons_of_neg (by simpa using hfirst), hrest]
    · rw [List.find?_cons_of_neg (by simpa using hfirst)] at h
      rw [List.filter_cons_of_pos (by simpa using hfirst)]
      exact ((ih hkeys.2 h).cons first).trans (.swap slot first _)

theorem key_notMem_remove (c : Cache) (refs : RefCounts) (key : TermIndex) :
    key ∉ (c.remove refs key).1.slots.map (·.key) := by
  rw [slots_remove]
  intro hmem
  obtain ⟨slot, hslot, hkey⟩ := List.mem_map.mp hmem
  exact of_decide_eq_true (List.mem_filter.mp hslot).2 hkey

theorem nodup_keys_remove (h : (c.slots.map (·.key)).Nodup) (refs : RefCounts) (key : TermIndex) :
    ((c.remove refs key).1.slots.map (·.key)).Nodup := by
  rw [slots_remove]
  exact h.sublist (List.filter_sublist.map _)

theorem nodup_keys_placed (h : (c.slots.map (·.key)).Nodup) :
    ((c.placed refs key r).slots.map (·.key)).Nodup :=
  List.nodup_cons.mpr ⟨key_notMem_remove c refs key, nodup_keys_remove h refs key⟩

theorem Balanced.remove (h : c.Balanced refs others) (key : TermIndex) :
    (c.remove refs key).1.Balanced (c.remove refs key).2 others := by
  refine ⟨nodup_keys_remove h.keys refs key, ?_⟩
  unfold Cache.remove
  cases hfound : c.find? key with
  | none => exact h.balances
  | some slot =>
    have hperm := (perm_of_find? h.keys hfound).map (·.ref)
    exact RefCounts.Balances.release (h.balances.perm (hperm.append_right others))

theorem Balanced.put (h : c.Balanced refs others)
    (hput : c.put refs key r purpose = .ok (c', refs')) : c'.Balanced refs' others := by
  rcases put_eq_ok.mp hput with ⟨-, ⟨-, rfl, rfl⟩ | ⟨retained, -, hretain, rfl, rfl⟩⟩
  · exact h
  · have hretained := (h.cons fun _ hheld => hheld.of_retain? hretain).remove key
    exact ⟨nodup_keys_placed h.keys, hretained.balances.perm List.perm_middle⟩

theorem Balanced.evict (h : c.Balanced refs others) :
    (c.evict refs).1.Balanced (c.evict refs).2 others := by
  unfold Cache.evict
  cases hcontents : c.contents with
  | closed => exact h
  | active slots => exact ⟨.nil, h.balances.releaseAll⟩

theorem Balanced.close (h : c.Balanced refs others) :
    (c.close refs).1.Balanced (c.close refs).2 others := by
  unfold Cache.close
  cases hcontents : c.contents with
  | closed => exact h
  | active slots => exact ⟨.nil, h.balances.releaseAll⟩

theorem Balanced.of_get? (h : c.Balanced refs others)
    (hget : c.get? refs key = some (r, refs')) : c.Balanced refs' (r :: others) := by
  obtain ⟨slot, -, hrest⟩ := Option.bind_eq_some_iff.mp hget
  obtain ⟨retained, hretain, hresult⟩ := Option.bind_eq_some_iff.mp hrest
  cases hresult
  exact h.cons fun _ hheld => hheld.of_retain? hretain

/-- A lookup hands out what is held under the key, as one more reference to it can be taken. -/
theorem Balanced.fst_get? (h : c.Balanced refs others) (key : TermIndex) :
    (c.get? refs key).map (·.1) = (c.find? key).map (·.ref) := by
  cases hfound : c.find? key with
  | none => simp [Cache.get?, hfound]
  | some slot =>
    have hslot : slot.ref ∈ c.refsHeld := List.mem_map_of_mem (List.mem_of_find?_eq_some hfound)
    obtain ⟨retained, hretain⟩ := h.balances.retain? (List.mem_append_left others hslot)
    simp [Cache.get?, hfound, hretain]

/-- A lookup misses what is not in a slot, and nothing else. -/
theorem Balanced.get?_eq_none_iff (h : c.Balanced refs others) :
    c.get? refs key = none ↔ ∀ slot ∈ c.slots, slot.key ≠ key := by
  rw [← Option.map_eq_none_iff (f := fun found : EntryRef × RefCounts => found.1), h.fst_get?]
  simp [find?, List.find?_eq_none]

end Cache

end SegmentedLog
