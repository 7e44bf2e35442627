import SegmentedLog.Proofs.Loading

/-! # What segments keep of their caches

A segment works on its cache by the operations of caches alone, and puts entries in under their own
keys. What these operations keep of a cache and of the counts, the calls of segments keep, however
they end; loading does, too, if sharing, taking and giving up references keep it.
-/

namespace SegmentedLog

open Stepwise

namespace Cache

/-- Whether the operations of caches keep a property of a cache and the counts, where the references
that are put in are such as `given` tells, under the keys of their entries. -/
structure InvariantFor (given : EntryRef → Prop) (J : Cache → RefCounts → Prop) : Prop where
  put : ∀ {c c' : Cache} {refs refs' : RefCounts} {r : EntryRef} {purpose : SizePurpose},
    given r → J c refs → c.put refs r.entry.key r purpose = .ok (c', refs') → J c' refs'
  remove : ∀ {c : Cache} {refs : RefCounts} (key : TermIndex),
    J c refs → J (c.remove refs key).1 (c.remove refs key).2
  evict : ∀ {c : Cache} {refs : RefCounts}, J c refs → J (c.evict refs).1 (c.evict refs).2
  close : ∀ {c : Cache} {refs : RefCounts}, J c refs → J (c.close refs).1 (c.close refs).2

abbrev Invariant (J : Cache → RefCounts → Prop) : Prop := InvariantFor (fun _ => True) J

/-- Whether loading keeps the property, too: what is newly shared may be put in, and references may
be taken and given up. -/
structure LoadInvariant (given : EntryRef → Prop) (J : Cache → RefCounts → Prop) : Prop
    extends InvariantFor given J where
  wrap : ∀ {c : Cache} {refs : RefCounts} (e : LogEntry),
    J c refs → given (refs.wrap e).1 ∧ J c (refs.wrap e).2
  retain : ∀ {c : Cache} {refs refs' : RefCounts} {r : EntryRef},
    J c refs → refs.retain? r = some refs' → J c refs'
  release : ∀ {c : Cache} {refs : RefCounts} (r : EntryRef), J c refs → J c (refs.release r)

variable {given : EntryRef → Prop} {J : Cache → RefCounts → Prop} {K : Cache → Prop}
  {c : Cache} {refs : RefCounts}

/-- What does not depend on the counts is kept in loading. -/
theorem Invariant.loads (hK : Invariant fun c _ => K c) :
    LoadInvariant (fun _ => True) fun c _ => K c :=
  ⟨hK, fun _ h => ⟨trivial, h⟩, fun h _ => h, fun _ h => h⟩

theorem LoadInvariant.releaseAll (hJ : LoadInvariant given J) (rs : List EntryRef)
    (h : J c refs) : J c (refs.releaseAll rs) := by
  induction rs generalizing refs with
  | nil => exact h
  | cons r rs ih => exact ih (hJ.release r h)

end Cache

namespace Session

variable {given : EntryRef → Prop} {J : Cache → RefCounts → Prop} {s : Session} {r : EntryRef}
  {purpose : SizePurpose} {key : TermIndex}

def CacheHas (J : Cache → RefCounts → Prop) (s : Session) : Prop := J s.segment.cache s.refs

/-! ## Working on a segment -/

theorem leaves_guarded {α : Type} (result : Except Fault α) (h : s.CacheHas J) :
    Leaves (CacheHas J) (guarded result) s := by
  cases result <;> exact h

theorem leaves_update {f : Segment → Segment} (hf : ∀ seg, (f seg).cache = seg.cache)
    (h : s.CacheHas J) : Leaves (CacheHas J) (update f) s := by
  change J (f s.segment).cache s.refs
  rw [hf]
  exact h

theorem leaves_onIndex {α : Type} (m : SegmentIndex.Step α) (h : s.CacheHas J) :
    Leaves (CacheHas J) (onIndex m) s := by
  unfold Leaves onIndex
  cases m s.segment.index <;> exact h

theorem leaves_account (e : LogEntry) (index : UInt64) (h : s.CacheHas J) :
    Leaves (CacheHas J) (account purpose e index) s := by
  refine (leaves_guarded _ h).bind fun size t _ ht => ?_
  refine (leaves_update (fun _ => by rfl) ht).bind fun _ t _ ht => ?_
  refine (leaves_guarded _ ht).bind fun next t _ ht => ?_
  exact (leaves_update (fun _ => by rfl) ht).bind fun _ _ _ ht => ht

theorem leaves_cacheEntry (hJ : Cache.InvariantFor given J) (hr : given r)
    (purpose : SizePurpose) (h : s.CacheHas J) :
    Leaves (CacheHas J) (cacheEntry r purpose) s := by
  unfold Leaves
  rw [cacheEntry, get_bind]
  cases hput : s.segment.cache.put s.refs r.entry.key r purpose with
  | error cause => exact h
  | ok placed => exact hJ.put hr h hput

theorem leaves_take (hJ : Cache.InvariantFor given J) (hr : given r) (purpose : SizePurpose)
    (keep : Bool) (h : s.CacheHas J) : Leaves (CacheHas J) (take purpose r keep) s := by
  unfold Leaves
  rw [take_eq]
  refine Leaves.bind (leaves_onIndex _ h) fun index t _ ht => Leaves.ite (fun _ => ?_) fun _ => ?_
  · exact (leaves_cacheEntry hJ hr purpose ht).bind fun _ _ _ hu => leaves_account _ _ hu
  · exact leaves_account _ _ ht

theorem leaves_append (hJ : Cache.InvariantFor given J) (hr : given r) (h : s.CacheHas J) :
    Leaves (CacheHas J) (append purpose r) s := by
  unfold append
  exact Leaves.get_bind (Leaves.ite (fun _ => leaves_take hJ hr purpose true h) fun _ => h)

theorem leaves_takeOff (hJ : Cache.InvariantFor given J) (n next : Nat) (h : s.CacheHas J) :
    Leaves (CacheHas J) (takeOff next n) s := by
  induction n generalizing next s with
  | zero => exact h
  | succ n ih =>
    refine (leaves_onIndex _ h).bind fun removed t _ ht => ?_
    refine Leaves.ite (fun _ => ht) fun _ => ?_
    have hremoved : Leaves (CacheHas J) (onCache fun c refs => c.remove refs removed.key) t :=
      hJ.remove removed.key ht
    refine hremoved.bind fun _ t _ ht => ?_
    exact (leaves_update (fun _ => by rfl) ht).bind fun _ _ _ ht => ih _ ht

theorem leaves_truncate (hJ : Cache.InvariantFor given J) (first : UInt64) (h : s.CacheHas J) :
    Leaves (CacheHas J) (truncate first) s := by
  unfold truncate
  refine Leaves.get_bind (Leaves.ite (fun _ => ?_) fun _ => h)
  exact (leaves_takeOff hJ _ _ h).bind fun _ _ _ ht => ht

theorem leaves_close (h : s.CacheHas J) : Leaves (CacheHas J) close s := by
  unfold close
  exact Leaves.get_bind (Leaves.ite (fun _ => h) fun _ => h)

theorem leaves_clear (hJ : Cache.InvariantFor given J) (h : s.CacheHas J) :
    Leaves (CacheHas J) clear s := hJ.close h

theorem leaves_evict (hJ : Cache.InvariantFor given J) (h : s.CacheHas J) :
    Leaves (CacheHas J) evict s := hJ.evict h

end Session

/-! ## Loading -/

namespace Loader

variable {given : EntryRef → Prop} {J : Cache → RefCounts → Prop} {l : Loading}

def CacheHas (J : Cache → RefCounts → Prop) (l : Loading) : Prop := J l.cache l.refs

theorem leaves_receive (hJ : Cache.LoadInvariant given J) (key : TermIndex)
    (found : Option EntryRef) (e : LogEntry) (h : CacheHas J l) :
    Leaves (CacheHas J) (receive key found e) l := by
  obtain ⟨hgiven, hwrapped⟩ := hJ.wrap e h
  unfold receive
  refine Leaves.get_bind ?_
  dsimp only
  split
  · exact hJ.releaseAll _ (hJ.release _ hwrapped)
  · next hput =>
    have hplaced := hJ.put hgiven hwrapped hput
    exact Leaves.ite (fun _ => hJ.releaseAll _ hplaced) fun _ => hJ.release _ hplaced

theorem leaves_load (hJ : Cache.LoadInvariant given J) (key : TermIndex) (range : SegmentRange)
    (h : CacheHas J l) : Leaves (CacheHas J) (load key range) l := by
  unfold load
  refine Leaves.get_bind ?_
  dsimp only
  refine Leaves.bind (Leaves.foldlM (fun found e _ hl => leaves_receive hJ key found e hl) _ h)
    fun found l _ hl => ?_
  have hgiven : J l.cache (l.refs.releaseAll found.toList) := hJ.releaseAll _ hl
  split
  · exact hgiven
  · refine Leaves.modify_bind ?_
    split
    · exact hgiven
    · cases found <;> exact hl

end Loader

namespace Session

variable {s : Session}

/-- What a loader does with the cache, it does with the cache of the segment. -/
theorem ends_onLoader {α : Type} {m : Loader.Step α} {Q : α → Cache → RefCounts → Prop}
    {E : Cache → RefCounts → Prop}
    (hm : Ends (fun a => Loader.CacheHas (Q a)) (Loader.CacheHas E) m
      { s with loader := s.segment.loader, cache := s.segment.cache }) :
    Ends (fun a => CacheHas (Q a)) (CacheHas E) (onLoader m) s := by
  cases hrun : m { s with loader := s.segment.loader, cache := s.segment.cache } with
  | ok a l => exact .of_ok (onLoader_of_ok hrun) (hm.ok hrun)
  | error cause l => exact .of_error (onLoader_of_error hrun) (hm.error hrun)

theorem ends_explain {α : Type} {m : Step α} {Q : α → Session → Prop} {E : Session → Prop}
    (key : TermIndex) (h : Ends Q E m s) : Ends Q E (explain key m) s := by
  cases hm : m s with
  | ok a t => exact .of_ok (explain_of_ok hm) (h.ok hm)
  | error cause t =>
    obtain ⟨cause', herror⟩ : ∃ cause', explain key m s = .error cause' t := by
      cases cause with
      | fault cause => exact ⟨.fault cause, by simp only [explain, hm]⟩
      | error cause =>
        simp only [explain, hm]
        split <;> exact ⟨_, rfl⟩
    exact .of_error herror (h.error hm)

variable {given : EntryRef → Prop} {J : Cache → RefCounts → Prop}

theorem leaves_cached? (hJ : Cache.LoadInvariant given J) (key : TermIndex) (h : s.CacheHas J) :
    Leaves (CacheHas J) (cached? key) s := by
  unfold Leaves
  rw [cached?, get_bind]
  cases hget : s.segment.cache.get? s.refs key with
  | none => exact h
  | some found =>
    obtain ⟨slot, -, hrest⟩ := Option.bind_eq_some_iff.mp hget
    obtain ⟨refs, hretain, hresult⟩ := Option.bind_eq_some_iff.mp hrest
    cases hresult
    exact hJ.retain h hretain

theorem leaves_load (hJ : Cache.LoadInvariant given J) (key : TermIndex) (h : s.CacheHas J) :
    Leaves (CacheHas J) (load key) s := by
  refine (leaves_cached? hJ key h).bind fun found t _ ht => ?_
  cases found with
  | some r => exact ht
  | none =>
    refine Leaves.get_bind (Leaves.ite (fun _ => ?_) fun _ => ht)
    have hload := Ends.of_leaves (Loader.leaves_load hJ key t.segment.range
      (l := { t with loader := t.segment.loader, cache := t.segment.cache }) ht)
    exact (ends_explain key (ends_onLoader hload)).leaves

end Session

end SegmentedLog
