import SegmentedLog.Proofs.Sharing

/-! # The running total of a cache

The total of a cache goes up and down with every entry that comes and goes. As 64-bit numbers add
and subtract without loss around the wrap, it is always the sum of the sizes of what is held, as far
as 64 bits can tell it.
-/

namespace SegmentedLog

namespace Cache

variable {c c' : Cache} {refs after : RefCounts} {key : TermIndex} {r : EntryRef} {slot : Slot}
  {purpose : SizePurpose}

def footprint (c : Cache) : Nat := (c.refsHeld.map (·.entry.footprint)).sum

/-- Whether a cache has one slot for a key, each counted at the size of its entry, and the total is
the sum of these sizes. -/
structure Counted (c : Cache) : Prop where
  keys : (c.slots.map (·.key)).Nodup
  sizes : ∀ slot ∈ c.slots, slot.size = slot.ref.entry.footprint
  total : c.total = UInt64.ofNat c.footprint

theorem counted_empty : Counted {} := ⟨.nil, nofun, rfl⟩

/-- The total is read as it is while the sum fits into it. -/
theorem Counted.size (h : c.Counted) : c.size = c.footprint % UInt64.size := by
  rw [Cache.size, h.total]
  exact UInt64.toNat_ofNat'

theorem Counted.size_of_fits (h : c.Counted) (hfits : c.footprint < UInt64.size) :
    c.size = c.footprint := by
  rw [h.size, Nat.mod_eq_of_lt hfits]

theorem footprint_remove (refs : RefCounts) (hkeys : (c.slots.map (·.key)).Nodup)
    (hfound : c.find? key = some slot) :
    c.footprint = slot.ref.entry.footprint + (c.remove refs key).1.footprint := by
  have hperm := ((perm_of_find? hkeys hfound).map (·.ref)).map (·.entry.footprint)
  rw [footprint, footprint, refsHeld, refsHeld, slots_remove]
  exact hperm.sum_eq

theorem Counted.remove (h : c.Counted) (refs : RefCounts) (key : TermIndex) :
    (c.remove refs key).1.Counted := by
  cases hfound : c.find? key with
  | none =>
    rw [Cache.remove, hfound]
    exact h
  | some slot =>
    have hfootprint := footprint_remove refs h.keys hfound
    have hslot : slot.size = slot.ref.entry.footprint :=
      h.sizes slot (List.mem_of_find?_eq_some hfound)
    refine ⟨nodup_keys_remove h.keys refs key, fun other hother => ?_, ?_⟩
    · rw [slots_remove] at hother
      exact h.sizes other (List.mem_filter.mp hother).1
    · have htotal : (c.remove refs key).1.total = c.total - UInt64.ofNat slot.size := by
        rw [Cache.remove, hfound]
      rw [htotal, h.total, hfootprint, hslot, UInt64.ofNat_add]
      exact add_sub_cancel_left _ _

theorem footprint_placed : (c.placed refs key r).footprint =
    r.entry.footprint + (c.remove refs key).1.footprint := rfl

theorem Counted.put (h : c.Counted) (hput : c.put refs key r purpose = .ok (c', after)) :
    c'.Counted := by
  rcases put_eq_ok.mp hput with ⟨-, ⟨-, rfl, -⟩ | ⟨retained, -, -, rfl, -⟩⟩
  · exact h
  · have hrest := h.remove retained key
    refine ⟨nodup_keys_placed h.keys, fun slot hslot => ?_, ?_⟩
    · rcases List.mem_cons.mp hslot with rfl | hslot
      · rfl
      · exact hrest.sizes slot hslot
    · rw [footprint_placed, UInt64.ofNat_add, add_comm, ← hrest.total]
      rfl

theorem drained_eq (c : Cache) :
    c.drained = c.total - UInt64.ofNat (c.slots.map (·.size)).sum := by
  unfold drained
  generalize c.total = total
  induction c.slots generalizing total with
  | nil => exact (UInt64.sub_zero total).symm
  | cons slot slots ih =>
    rw [List.foldl_cons, ih, List.map_cons, List.sum_cons, UInt64.ofNat_add]
    exact sub_sub _ _ _

/-- Counting every slot off leaves nothing, as each was counted. -/
theorem Counted.drained (h : c.Counted) : c.drained = 0 := by
  have hsizes : c.slots.map (·.size) = c.refsHeld.map (·.entry.footprint) := by
    rw [refsHeld, List.map_map]
    exact List.map_congr_left h.sizes
  rw [drained_eq, hsizes, h.total]
  exact UInt64.sub_self _

theorem Counted.evict (h : c.Counted) (refs : RefCounts) : (c.evict refs).1.Counted := by
  unfold Cache.evict
  cases hcontents : c.contents with
  | closed => exact h
  | active slots => exact ⟨.nil, nofun, h.drained⟩

theorem Counted.close (h : c.Counted) (refs : RefCounts) : (c.close refs).1.Counted := by
  unfold Cache.close
  cases hcontents : c.contents with
  | closed => exact h
  | active slots => exact ⟨.nil, nofun, h.drained⟩

end Cache

end SegmentedLog
