import SegmentedLog.Proofs.Conservation
import SegmentedLog.Proofs.Rejection

/-! # Letting go of cached entries

A cached entry stays cached until its cache is evicted, closed or dropped, or it is removed or
truncated there. What is read from a file is shared anew, so an entry does not get into a cache
again unless a caller puts it there. Once every cache that holds it has let go of it, nothing is
counted but the references of the callers.
-/

namespace SegmentedLog

open Stepwise

namespace RefCounts

variable {refs refs' : RefCounts} {r : EntryRef}

def Shared (refs : RefCounts) (r : EntryRef) : Prop := r.number < refs.counts.size

theorem Shared.wrap (h : refs.Shared r) (e : LogEntry) :
    ¬ (refs.wrap e).1.Same r ∧ (refs.wrap e).2.Shared r := by
  refine ⟨fun hsame => h.ne' hsame, ?_⟩
  change r.number < (refs.counts.push 1).size
  rw [Array.size_push]
  exact Nat.lt_succ_of_lt h

theorem shared_release (other : EntryRef) : (refs.release other).Shared r ↔ refs.Shared r := by
  simp [Shared, release]

theorem shared_releaseAll (rs : List EntryRef) : (refs.releaseAll rs).Shared r ↔ refs.Shared r := by
  induction rs generalizing refs with
  | nil => exact Iff.rfl
  | cons other rs ih => exact ih.trans (shared_release other)

theorem shared_of_retain? {other : EntryRef} (h : refs.retain? other = some refs') :
    refs'.Shared r ↔ refs.Shared r := by
  unfold retain? at h
  split at h
  · cases h
  · cases h
    simp [Shared]

end RefCounts

namespace Cache

variable {c c' : Cache} {refs refs' : RefCounts} {r given : EntryRef} {S : TermIndex → Prop}
  {key : TermIndex} {purpose : SizePurpose}

/-- Whether an entry was shared before and a cache holds it under some keys at most. -/
structure Confines (r : EntryRef) (S : TermIndex → Prop) (c : Cache) (refs : RefCounts) : Prop where
  shared : refs.Shared r
  keys : ∀ slot ∈ c.slots, slot.ref.Same r → S slot.key

theorem shared_evict : (c.evict refs).2.Shared r ↔ refs.Shared r := by
  unfold evict
  cases c.contents with
  | closed => exact Iff.rfl
  | active => exact RefCounts.shared_releaseAll _

theorem shared_close : (c.close refs).2.Shared r ↔ refs.Shared r := by
  unfold close
  cases c.contents with
  | closed => exact Iff.rfl
  | active => exact RefCounts.shared_releaseAll _

theorem shared_remove : (c.remove refs key).2.Shared r ↔ refs.Shared r := by
  unfold remove
  cases c.find? key with
  | none => exact Iff.rfl
  | some slot => exact RefCounts.shared_release _

theorem slots_remove_subset : ∀ slot ∈ (c.remove refs key).1.slots, slot ∈ c.slots := by
  rw [slots_remove]
  exact fun slot hslot => List.mem_of_mem_filter hslot

theorem Confines.remove (h : c.Confines r S refs) (key : TermIndex) :
    (c.remove refs key).1.Confines r S (c.remove refs key).2 :=
  ⟨shared_remove.mpr h.shared, fun slot hslot => h.keys slot (slots_remove_subset slot hslot)⟩

theorem Confines.of_nil (hshared : refs.Shared r) (hslots : c.slots = []) :
    c.Confines r S refs := by
  refine ⟨hshared, ?_⟩
  rw [hslots]
  nofun

theorem Confines.put (h : c.Confines r S refs) (hgiven : ¬ given.Same r)
    (hput : c.put refs key given purpose = .ok (c', refs')) : c'.Confines r S refs' := by
  rcases put_eq_ok.mp hput with ⟨-, ⟨-, rfl, rfl⟩ | ⟨retained, -, hretain, rfl, rfl⟩⟩
  · exact h
  · have hretained : c.Confines r S retained :=
      ⟨(RefCounts.shared_of_retain? hretain).mpr h.shared, h.keys⟩
    have hrest := hretained.remove key
    exact ⟨hrest.shared, List.forall_mem_cons.mpr ⟨fun hsame => absurd hsame hgiven, hrest.keys⟩⟩

theorem confines_invariant (r : EntryRef) (S : TermIndex → Prop) :
    LoadInvariant (fun given => ¬ given.Same r) (Confines r S) where
  put hgiven h hput := h.put hgiven hput
  remove key h := h.remove key
  evict h := .of_nil (shared_evict.mpr h.shared) slots_evict
  close h := .of_nil (shared_close.mpr h.shared) slots_close
  wrap e h := ⟨(h.shared.wrap e).1, (h.shared.wrap e).2, h.keys⟩
  retain h hretain := ⟨(RefCounts.shared_of_retain? hretain).mpr h.shared, h.keys⟩
  release other h := ⟨(RefCounts.shared_release other).mpr h.shared, h.keys⟩

end Cache

theorem Host.keeps_confined (r : EntryRef) (S : TermIndex → Prop) :
    Host.Keeps (Cache.Confines r S) fun refs => refs.Shared r where
  empty h := .of_nil h rfl
  takeRead keep e h := Host.leaves_takeRead (Cache.confines_invariant r S) keep e h
  drop h := (RefCounts.shared_releaseAll _).mpr h.shared

namespace Session

variable {s t : Session} {first : UInt64} {record : LogRecord} {n : Nat}

/-- Records are taken off only if the next index is the one behind the last of them. -/
theorem next_of_takeOff (h : s.segment.index.Contiguous) (hne : s.segment.records ≠ [])
    (hpos : 0 < s.segment.next.toNat) (htaken : takeOff s.segment.next.toNat (n + 1) s = .ok () t) :
    s.segment.next.toNat = s.segment.start.toNat + s.segment.records.length := by
  have hlast : s.segment.index.last? = some (s.segment.records.getLast hne) :=
    List.getLast?_eq_some_getLast hne
  have hindex : (s.segment.records.getLast hne).index.toNat + 1 =
      s.segment.start.toNat + s.segment.records.length := h.toNat_last? hlast
  have hbound := s.segment.next.toNat_lt
  by_contra hnext
  have hother : (s.segment.records.getLast hne).index ≠
      UInt64.ofNat (s.segment.next.toNat - 1) := by
    intro heq
    rw [heq, UInt64.toNat_ofNat', Nat.mod_eq_of_lt (by omega)] at hindex
    omega
  obtain ⟨cause, u, hstopped⟩ := takeOff_of_other (n := n) hlast hother
  cases htaken.symm.trans hstopped

/-- A truncation that returns has taken off exactly the records from its index on. -/
theorem find?_of_truncate (h : s.segment.index.Contiguous) (htruncate : truncate first s = .ok () t)
    (hrecord : record ∈ s.segment.records) (hfirst : first ≤ record.index) :
    t.segment.cache.find? record.key = none := by
  by_cases hcontains : s.segment.Contains first
  · have hstart := UInt64.le_iff_toNat_le.mp hcontains.1
    have hlt := UInt64.lt_iff_toNat_lt.mp hcontains.2
    obtain ⟨n, hn⟩ : ∃ n, s.segment.next.toNat - first.toNat = n + 1 :=
      ⟨s.segment.next.toNat - first.toNat - 1, by omega⟩
    rw [truncate, get_bind, if_pos hcontains, hn] at htruncate
    obtain ⟨_, u, htaken, hrest⟩ := bind_eq_ok.mp htruncate
    obtain rfl := (modify_eq_ok.mp hrest).symm
    have hnext := next_of_takeOff h (List.ne_nil_of_mem hrecord) (Nat.zero_lt_of_lt hlt) htaken
    have hexact := takeOff_of_contiguous h (n := n + 1) (by omega)
    rw [← hnext] at hexact
    cases htaken.symm.trans hexact
    change (s.trimmed _).segment.cache.find? record.key = none
    rw [find?_trimmed, if_pos]
    obtain ⟨i, hi, rfl⟩ := List.getElem_of_mem hrecord
    have hindex := h.toNat_getElem (k := i) (by rw [List.length_map]; exact hi)
    rw [List.getElem_map] at hindex
    rw [UInt64.le_iff_toNat_le] at hfirst
    change s.segment.records[i].index.toNat = s.segment.start.toNat + i at hindex
    refine List.mem_map_of_mem (List.mem_drop_iff_getElem.mpr ?_)
    exact ⟨i - (s.segment.records.length - (n + 1)), by omega, by congr 1; omega⟩
  · rw [truncate_of_not_contains hcontains] at htruncate
    cases htruncate

end Session

namespace Holdings

variable {h h' : Holdings} {r given : EntryRef} {key : TermIndex} {k : Nat} {c : Cache}
  {seg : Segment} {call : Call}

/-! ## What calls do to a cached entry -/

/-- Where a cache is: with the callers, or in a segment. -/
inductive Place where
  | cache (k : Nat)
  | segment (k : Nat)

def cacheAt? (h : Holdings) : Place → Option Cache
  | .cache k => h.cache? k
  | .segment k => (h.segment? k).map (·.cache)

def Holds (h : Holdings) (r : EntryRef) (place : Place) (key : TermIndex) : Prop :=
  ∃ c, h.cacheAt? place = some c ∧ ∃ slot ∈ c.slots, slot.key = key ∧ slot.ref.Same r

/-- Whether an entry is handed to a cache. -/
def CacheUse.Gives (handles : List EntryRef) (r : EntryRef) : CacheUse → Prop
  | put _ handle _ => ∃ given, handles[handle]? = some given ∧ given.Same r
  | get _ | remove _ | evict | close => False

def SegmentUse.Gives (handles : List EntryRef) (r : EntryRef) : SegmentUse → Prop
  | append _ handle => ∃ given, handles[handle]? = some given ∧ given.Same r
  | lookUp _ | load _ | truncate _ | close | clear | evict => False

def Gives (h : Holdings) (r : EntryRef) : Call → Prop
  | .useCache _ use => use.Gives h.handles r
  | .useSegment _ use => use.Gives h.handles r
  | _ => False

def CacheUse.LetsGo (key : TermIndex) : CacheUse → Prop
  | evict | close => True
  | remove removed => removed = key
  | put .. | get _ => False

/-- Whether a segment is rid of what it cached under a key: of everything, or, where a truncation
returns, of what was cached for the records it took off. -/
def SegmentUse.LetsGo (s : Session) (key : TermIndex) : SegmentUse → Prop
  | evict | clear => True
  | truncate first => (∃ t, Session.truncate first s = .ok () t) ∧
      ∃ record ∈ s.segment.records, first ≤ record.index ∧ record.key = key
  | append .. | lookUp _ | load _ | close => False

def LetsGo (h : Holdings) (place : Place) (key : TermIndex) : Call → Prop
  | .useCache k use => place = .cache k ∧ use.LetsGo key
  | .useSegment k use => place = .segment k ∧
      ∃ segment, h.segment? k = some segment ∧ use.LetsGo { h.toHost with segment } key
  | .dropCache k => place = .cache k
  | .dropSegment k => place = .segment k
  | _ => False

/-- Whether each call of a run is such as `P` tells, in the state it is made in. -/
def Throughout (P : Holdings → Call → Prop) : Holdings → List Call → Prop
  | _, [] => True
  | h, call :: calls => P h call ∧ Throughout P (h.after call) calls

def Sometime (P : Holdings → Call → Prop) : Holdings → List Call → Prop
  | _, [] => False
  | h, call :: calls => P h call ∨ Sometime P (h.after call) calls

/-! ## One call -/

/-- Whether an entry was shared, and is cached under some keys of some places at most. -/
structure Confined (h : Holdings) (r : EntryRef) (S : Place → TermIndex → Prop) : Prop where
  shared : h.refs.Shared r
  keys : ∀ place c, h.cacheAt? place = some c → ∀ slot ∈ c.slots, slot.ref.Same r → S place slot.key

variable {S : Place → TermIndex → Prop} {place : Place}

theorem Confined.confines (hc : h.Confined r S) (hplace : h.cacheAt? place = some c) :
    c.Confines r (S place) h.refs := ⟨hc.shared, hc.keys place c hplace⟩

/-- A call that works on one cache leaves the others. -/
theorem Confined.of_place (hc : h.Confined r S) (place : Place) (hshared : h'.refs.Shared r)
    (hothers : ∀ other, other ≠ place → h'.cacheAt? other = h.cacheAt? other)
    (hplace : ∀ c, h'.cacheAt? place = some c →
      ∀ slot ∈ c.slots, slot.ref.Same r → S place slot.key) : h'.Confined r S := by
  refine ⟨hshared, fun other c hother => ?_⟩
  by_cases hsame : other = place
  · rw [hsame] at hother ⊢
    exact hplace c hother
  · rw [hothers other hsame] at hother
    exact hc.keys other c hother

section Places

variable {α : Type} {places : List (Option α)} {j : Nat} {a : α} {o : Option α}

theorem join_set_of_ne (hne : j ≠ k) : (places.set k o)[j]?.join = places[j]?.join := by
  rw [List.getElem?_set_ne hne.symm]

theorem join_set_self (h : places[k]?.join = some a) : (places.set k o)[k]?.join = o := by
  obtain ⟨hk, -⟩ := List.getElem?_eq_some_iff.mp (Option.join_eq_some_iff.mp h)
  rw [List.getElem?_set_self hk]
  rfl

theorem join_append_of_ne (hne : j ≠ places.length) :
    (places ++ [o])[j]?.join = places[j]?.join := by
  rcases Nat.lt_or_gt_of_ne hne with hlt | hgt
  · rw [List.getElem?_append_left hlt]
  · rw [List.getElem?_eq_none (by simp; omega), List.getElem?_eq_none hgt.le]

theorem join_append_self : (places ++ [o])[places.length]?.join = o := by
  rw [List.getElem?_concat_length]
  rfl

end Places

theorem CacheUse.confines {T : TermIndex → Prop} {refs : RefCounts} {handles : List EntryRef}
    (use : CacheUse) (hc : c.Confines r T refs) (hgives : ¬ use.Gives handles r) :
    let used := use.apply handles c refs
    used.2.1.Confines r T used.2.2 := by
  have hJ := Cache.confines_invariant r T
  cases use with
  | put key handle purpose =>
    unfold apply
    dsimp only
    split
    · next hput =>
      obtain ⟨given, hgiven, hput⟩ := Option.map_eq_some_iff.mp hput
      exact hc.put (fun hsame => hgives ⟨given, hgiven, hsame⟩) hput
    · exact hc
    · exact hc
  | get key =>
    unfold apply
    dsimp only
    split
    · next hget =>
      obtain ⟨slot, -, hrest⟩ := Option.bind_eq_some_iff.mp hget
      obtain ⟨retained, hretain, hresult⟩ := Option.bind_eq_some_iff.mp hrest
      cases hresult
      exact hJ.retain hc hretain
    · exact hc
  | remove key => exact hc.remove key
  | evict => exact hJ.evict hc
  | close => exact hJ.close hc

theorem CacheUse.notMem_of_letsGo {refs : RefCounts} (handles : List EntryRef) {use : CacheUse}
    (hgoes : use.LetsGo key) : key ∉ (use.apply handles c refs).2.1.slots.map (·.key) := by
  cases use with
  | put | get => cases hgoes
  | remove removed =>
    obtain rfl : removed = key := hgoes
    exact Cache.key_notMem_remove c refs removed
  | evict => exact Cache.key_notMem_evict key
  | close => exact Cache.key_notMem_close key

theorem SegmentUse.confines {T : TermIndex → Prop} {s : Session} {handles : List EntryRef}
    (use : SegmentUse) (hs : s.CacheHas (Cache.Confines r T)) (hgives : ¬ use.Gives handles r) :
    Leaves (Session.CacheHas (Cache.Confines r T)) (use.step handles) s := by
  have hJ := Cache.confines_invariant r T
  cases use with
  | append purpose handle =>
    unfold step
    dsimp only
    split
    · next given hgiven =>
      have hother : ¬ given.Same r := fun hsame => hgives ⟨given, hgiven, hsame⟩
      exact (Session.leaves_append hJ.toInvariantFor hother hs).bind fun _ _ _ ht => ht
    · exact hs
  | lookUp key => exact (Session.leaves_cached? hJ key hs).bind fun _ _ _ ht => ht
  | load key => exact (Session.leaves_load hJ key hs).bind fun _ _ _ ht => ht
  | truncate first =>
    exact (Session.leaves_truncate hJ.toInvariantFor first hs).bind fun _ _ _ ht => ht
  | close => exact (Session.leaves_close hs).bind fun _ _ _ ht => ht
  | clear => exact (Session.leaves_clear hJ.toInvariantFor hs).bind fun _ _ _ ht => ht
  | evict => exact (Session.leaves_evict hJ.toInvariantFor hs).bind fun _ _ _ ht => ht

theorem SegmentUse.notMem_of_letsGo {s : Session} (handles : List EntryRef) {use : SegmentUse}
    (hs : s.segment.index.Contiguous) (hgoes : use.LetsGo s key) :
    Leaves (fun t => key ∉ t.segment.cache.slots.map (·.key)) (use.step handles) s := by
  cases use with
  | append | lookUp | load | close => cases hgoes
  | truncate first =>
    obtain ⟨⟨t, htruncate⟩, record, hrecord, hfirst, rfl⟩ := hgoes
    have hstep : (truncate first).step handles s = .ok [] t := bind_of_ok htruncate
    unfold Leaves
    rw [hstep]
    have hnone := Session.find?_of_truncate hs htruncate hrecord hfirst
    intro hmem
    obtain ⟨slot, hslot, hkey⟩ := List.mem_map.mp hmem
    exact List.find?_eq_none.mp hnone slot hslot (decide_eq_true hkey)
  | clear => exact Cache.key_notMem_close key
  | evict => exact Cache.key_notMem_evict key

def Contiguous (h : Holdings) : Prop :=
  ∀ k segment, h.segment? k = some segment → segment.index.Contiguous

theorem SegmentUse.leaves_contiguous {s : Session} (handles : List EntryRef) (use : SegmentUse)
    (hs : s.segment.index.Contiguous) :
    Leaves (·.segment.index.Contiguous) (use.step handles) s := by
  cases use with
  | append purpose handle =>
    unfold step
    dsimp only
    split
    · exact (Session.append_leaves_contiguous hs purpose _).bind fun _ _ _ ht => ht
    · exact hs
  | lookUp key =>
    exact .of_kept (.bind (Session.cached?_within key) fun _ => .pure _) fun _ =>
      Session.contiguous_of_lasting hs
  | load key =>
    exact .of_kept (.bind (Session.load_within key) fun _ => .pure _) fun _ =>
      Session.contiguous_of_lasting hs
  | truncate first =>
    exact (Session.truncate_leaves_contiguous hs first).bind fun _ _ _ ht => ht
  | close => exact Leaves.bind (.get_bind (.ite (fun _ => hs) fun _ => hs)) fun _ _ _ ht => ht
  | clear => exact Consecutive.nil
  | evict =>
    exact .of_kept (.bind Session.evict_within fun _ => .pure _) fun _ =>
      Session.contiguous_of_lasting hs

theorem Contiguous.of_set {o : Option Segment} (hc : h.Contiguous) (hk : h.segment? k = some seg)
    (hset : h'.segments = h.segments.set k o)
    (ho : ∀ segment, o = some segment → segment.index.Contiguous) : h'.Contiguous := by
  intro j segment hj
  rw [segment?, hset] at hj
  by_cases hsame : j = k
  · rw [hsame, join_set_self hk] at hj
    exact ho segment hj
  · rw [join_set_of_ne hsame] at hj
    exact hc j segment hj

theorem Contiguous.of_append (hc : h.Contiguous) (hseg : seg.index.Contiguous)
    (happend : h'.segments = h.segments ++ [some seg]) : h'.Contiguous := by
  intro j segment hj
  rw [segment?, happend] at hj
  by_cases hsame : j = h.segments.length
  · rw [hsame, join_append_self] at hj
    cases hj
    exact hseg
  · rw [join_append_of_ne hsame] at hj
    exact hc j segment hj

theorem Contiguous.after (hc : h.Contiguous) (call : Call) : (h.after call).Contiguous := by
  cases call with
  | wrap | newCache | outside => exact hc
  | retain handle =>
    unfold Holdings.after
    dsimp only
    split
    · exact hc
    · split <;> exact hc
  | release handle =>
    unfold Holdings.after
    dsimp only
    split <;> exact hc
  | useCache k use =>
    change (h.useCache k use).Contiguous
    unfold useCache
    split <;> exact hc
  | dropCache k =>
    unfold Holdings.after
    dsimp only
    split <;> exact hc
  | newSegment context range =>
    unfold Holdings.after
    dsimp only
    split
    · next seg hseg =>
      obtain ⟨hholds, -, -, -, -⟩ := Segment.holds_of_ofRange hseg
      exact hc.of_append hholds.contiguous rfl
    · exact hc
  | loadSegment context path range keep =>
    change (h.loadSegment context path range keep).Contiguous
    unfold loadSegment
    split
    · next seg? host hload =>
      cases seg? with
      | none =>
        rw [Option.toList_none, List.map_nil, List.append_nil]
        exact hc
      | some seg =>
        obtain ⟨entries, hyielded⟩ := Host.loadSegment_eq_some hload
        exact hc.of_append hyielded.holds.contiguous rfl
    · exact hc
  | useSegment k use =>
    change (h.useSegment k use).Contiguous
    unfold useSegment
    split
    · exact hc
    · next seg hk =>
      have hused := use.leaves_contiguous h.handles (s := { h.toHost with segment := seg })
        (hc k seg hk)
      split
      · next hrun =>
        refine hc.of_set hk rfl fun segment hsegment => ?_
        cases hsegment
        exact hused.of_ok hrun
      · next hrun =>
        refine hc.of_set hk rfl fun segment hsegment => ?_
        cases hsegment
        exact hused.of_error hrun
  | dropSegment k =>
    unfold Holdings.after
    dsimp only
    split
    · exact hc
    · next hk => exact hc.of_set hk rfl nofun

theorem cacheAt?_of_set_cache {o : Option Cache} (hcaches : h'.caches = h.caches.set k o)
    (hsegments : h'.segments = h.segments) (hother : place ≠ .cache k) :
    h'.cacheAt? place = h.cacheAt? place := by
  cases place with
  | cache j =>
    have hne : j ≠ k := fun heq => hother (congrArg Place.cache heq)
    rw [cacheAt?, cache?, hcaches, join_set_of_ne hne]
    rfl
  | segment j =>
    rw [cacheAt?, segment?, hsegments]
    rfl

theorem cacheAt?_of_set_segment {o : Option Segment} (hcaches : h'.caches = h.caches)
    (hsegments : h'.segments = h.segments.set k o) (hother : place ≠ .segment k) :
    h'.cacheAt? place = h.cacheAt? place := by
  cases place with
  | cache j =>
    rw [cacheAt?, cache?, hcaches]
    rfl
  | segment j =>
    have hne : j ≠ k := fun heq => hother (congrArg Place.segment heq)
    rw [cacheAt?, segment?, hsegments, join_set_of_ne hne]
    rfl

/-- What the cache of a segment is to have that is now at the end. -/
theorem Confined.of_segment (hc : h.Confined r S)
    (hseg : seg.cache.Confines r (fun _ => False) h'.refs) (hcaches : h'.caches = h.caches)
    (hsegments : h'.segments = h.segments ++ [some seg]) : h'.Confined r S := by
  refine hc.of_place (.segment h.segments.length) hseg.shared (fun other hother => ?_)
    fun c hplace => ?_
  · cases other with
    | cache j =>
      rw [cacheAt?, cache?, hcaches]
      rfl
    | segment j =>
      have hne : j ≠ h.segments.length := fun heq => hother (congrArg Place.segment heq)
      rw [cacheAt?, segment?, hsegments, join_append_of_ne hne]
      rfl
  · rw [cacheAt?, segment?, hsegments, join_append_self] at hplace
    cases hplace
    exact fun slot hslot hsame => (hseg.keys slot hslot hsame).elim

theorem Confined.useCache (use : CacheUse) (hc : h.Confined r S)
    (hgives : ¬ use.Gives h.handles r) : (h.useCache k use).Confined r S := by
  unfold Holdings.useCache
  split
  · exact hc
  · next c hk =>
    have hat : h.cacheAt? (.cache k) = some c := hk
    have hused := use.confines (hc.confines hat) hgives
    refine hc.of_place (.cache k) hused.shared
      (fun other hne => cacheAt?_of_set_cache rfl rfl hne) fun c' hplace => ?_
    cases (join_set_self hk).symm.trans hplace
    exact hused.keys

theorem Confined.useSegment (use : SegmentUse) (hc : h.Confined r S)
    (hgives : ¬ use.Gives h.handles r) : (h.useSegment k use).Confined r S := by
  unfold Holdings.useSegment
  split
  · exact hc
  · next seg hk =>
    have hat : h.cacheAt? (.segment k) = some seg.cache := by rw [cacheAt?, hk]; rfl
    have hused := use.confines (s := { h.toHost with segment := seg }) (hc.confines hat) hgives
    have hplace {h' : Holdings} {s : Session}
        (hleft : s.CacheHas (Cache.Confines r (S (.segment k))))
        (hrefs : h'.refs = s.refs) (hcaches : h'.caches = h.caches)
        (hsegments : h'.segments = h.segments.set k (some s.segment)) : h'.Confined r S := by
      refine hc.of_place (.segment k) (hrefs ▸ hleft.shared)
        (fun other hne => cacheAt?_of_set_segment hcaches hsegments hne) fun c' hc' => ?_
      rw [cacheAt?, segment?, hsegments, join_set_self hk] at hc'
      cases hc'
      exact hleft.keys
    split
    · next hrun => exact hplace (hused.of_ok hrun) rfl rfl rfl
    · next hrun => exact hplace (hused.of_error hrun) rfl rfl rfl

/-- After a call an entry that was not given away is cached only where it was. -/
theorem Confined.after (hc : h.Confined r S) (hgives : ¬ h.Gives r call) :
    (h.after call).Confined r S := by
  cases call with
  | wrap e => exact ⟨(hc.shared.wrap e).2, hc.keys⟩
  | retain handle =>
    unfold Holdings.after
    dsimp only
    split
    · exact hc
    · split
      · exact hc
      · next hretain => exact ⟨(RefCounts.shared_of_retain? hretain).mpr hc.shared, hc.keys⟩
  | release handle =>
    unfold Holdings.after
    dsimp only
    split
    · exact hc
    · exact ⟨(RefCounts.shared_release _).mpr hc.shared, hc.keys⟩
  | newCache =>
    refine hc.of_place (.cache h.caches.length) hc.shared (fun other hother => ?_)
      fun c hplace => ?_
    · cases other with
      | cache j => exact join_append_of_ne fun heq => hother (congrArg Place.cache heq)
      | segment j => rfl
    · cases join_append_self.symm.trans hplace
      nofun
  | useCache k use => exact hc.useCache use hgives
  | dropCache k =>
    unfold Holdings.after
    dsimp only
    split
    · exact hc
    · next c hk =>
      refine hc.of_place (.cache k) ((RefCounts.shared_releaseAll _).mpr hc.shared)
        (fun other hne => cacheAt?_of_set_cache rfl rfl hne) fun c' hplace => ?_
      cases (join_set_self hk).symm.trans hplace
  | newSegment context range =>
    unfold Holdings.after
    dsimp only
    split
    · next seg hseg =>
      obtain ⟨-, -, hcache, -, -⟩ := Segment.holds_of_ofRange hseg
      refine hc.of_segment (.of_nil hc.shared ?_) rfl rfl
      rw [hcache]
      rfl
    · exact hc
  | loadSegment context path range keep =>
    have hloaded : Ends _ _ (Host.loadSegment context path range keep) h.toHost :=
      Host.ends_loadSegment (Host.keeps_confined r fun _ => False) context path range keep
        hc.shared
    change (h.loadSegment context path range keep).Confined r S
    unfold Holdings.loadSegment
    split
    · next seg? host hrun =>
      have hleaving := hloaded.ok hrun
      cases seg? with
      | none =>
        rw [Option.toList_none, List.map_nil, List.append_nil]
        exact ⟨hleaving, hc.keys⟩
      | some seg => exact hc.of_segment hleaving rfl rfl
    · next hrun => exact ⟨hloaded.error hrun, hc.keys⟩
  | useSegment k use => exact hc.useSegment use hgives
  | dropSegment k =>
    unfold Holdings.after
    dsimp only
    split
    · exact hc
    · next seg hk =>
      refine hc.of_place (.segment k) ((RefCounts.shared_releaseAll _).mpr hc.shared)
        (fun other hne => cacheAt?_of_set_segment rfl rfl hne) fun c' hplace => ?_
      rw [cacheAt?, segment?, join_set_self hk] at hplace
      cases hplace
  | outside disk sink => exact ⟨hc.shared, hc.keys⟩

/-- A call that lets go of what is under a key leaves nothing there. -/
theorem notMem_of_letsGo (hcontiguous : h.Contiguous) (hgoes : h.LetsGo place key call)
    (hplace : (h.after call).cacheAt? place = some c) : key ∉ c.slots.map (·.key) := by
  cases call with
  | wrap | retain | release | newCache | newSegment | loadSegment | outside => cases hgoes
  | useCache k use =>
    obtain ⟨rfl, hgoes⟩ := hgoes
    change (h.useCache k use).cache? k = some c at hplace
    unfold useCache at hplace
    split at hplace
    · next hnone => cases hnone.symm.trans hplace
    · next old hk =>
      cases (join_set_self hk).symm.trans hplace
      exact CacheUse.notMem_of_letsGo h.handles hgoes
  | dropCache k =>
    obtain rfl := hgoes
    unfold after at hplace
    dsimp only at hplace
    split at hplace
    · next hnone => cases hnone.symm.trans hplace
    · next hk => cases (join_set_self hk).symm.trans hplace
  | useSegment k use =>
    obtain ⟨rfl, seg, hk, hgoes⟩ := hgoes
    have hleaves := SegmentUse.notMem_of_letsGo h.handles (s := { h.toHost with segment := seg })
      (hcontiguous k seg hk) hgoes
    change ((h.useSegment k use).segment? k).map (·.cache) = some c at hplace
    unfold useSegment at hplace
    rw [hk] at hplace
    dsimp only at hplace
    split at hplace
    · next hrun =>
      rw [segment?, join_set_self hk] at hplace
      cases hplace
      exact hleaves.of_ok hrun
    · next hrun =>
      rw [segment?, join_set_self hk] at hplace
      cases hplace
      exact hleaves.of_error hrun
  | dropSegment k =>
    obtain rfl := hgoes
    change ((h.after (.dropSegment k)).segment? k).map (·.cache) = some c at hplace
    unfold after at hplace
    dsimp only at hplace
    split at hplace
    · next hnone =>
      rw [hnone] at hplace
      cases hplace
    · next hk =>
      rw [segment?, join_set_self hk] at hplace
      cases hplace

/-! ## Runs -/

theorem contiguous_run (calls : List Call) : (run calls).Contiguous := by
  suffices hmore : ∀ h : Holdings, h.Contiguous → (calls.foldl after h).Contiguous from
    hmore {} nofun
  induction calls with
  | nil => exact fun _ hc => hc
  | cons call calls ih => exact fun _ hc => ih _ (hc.after call)

/-- An entry that is not given away is cached after a run only where it was, and not where some call
let go of it. -/
theorem Confined.foldl {calls : List Call} (hc : h.Confined r S) (hcontiguous : h.Contiguous)
    (hgives : Throughout (fun h call => ¬ h.Gives r call) h calls) :
    (calls.foldl Holdings.after h).Confined r fun place key =>
      S place key ∧ ¬ Sometime (fun h call => h.LetsGo place key call) h calls := by
  induction calls generalizing h S with
  | nil =>
    exact ⟨hc.shared, fun place c hplace slot hslot hsame =>
      ⟨hc.keys place c hplace slot hslot hsame, id⟩⟩
  | cons call calls ih =>
    have hcall := hc.after hgives.1
    have hkept : (h.after call).Confined r fun place key =>
        S place key ∧ ¬ h.LetsGo place key call := by
      refine ⟨hcall.shared, fun place c hplace slot hslot hsame =>
        ⟨hcall.keys place c hplace slot hslot hsame, fun hgoes => ?_⟩⟩
      exact notMem_of_letsGo hcontiguous hgoes hplace (List.mem_map_of_mem hslot)
    have hrest := ih hkept (hcontiguous.after call) hgives.2
    refine ⟨hrest.shared, fun place c hplace slot hslot hsame => ?_⟩
    obtain ⟨⟨hkey, hfirst⟩, hmore⟩ := hrest.keys place c hplace slot hslot hsame
    exact ⟨hkey, not_or.mpr ⟨hfirst, hmore⟩⟩

theorem exists_place_of_mem_slots {slot : Cache.Slot} (hslot : slot ∈ h.slots) :
    ∃ place c, h.cacheAt? place = some c ∧ slot ∈ c.slots := by
  obtain ⟨c, hc, hslot⟩ := List.mem_flatMap.mp hslot
  rcases List.mem_append.mp hc with hcache | hsegment
  · obtain ⟨k, hk⟩ := List.mem_iff_getElem?.mp (List.reduceOption_mem_iff.mp hcache)
    exact ⟨.cache k, c, Option.join_eq_some_iff.mpr hk, hslot⟩
  · obtain ⟨seg, hseg, rfl⟩ := List.mem_map.mp hsegment
    obtain ⟨k, hk⟩ := List.mem_iff_getElem?.mp (List.reduceOption_mem_iff.mp hseg)
    refine ⟨.segment k, seg.cache, ?_, hslot⟩
    rw [cacheAt?, segment?, hk]
    rfl

/-- What is held is what is counted, whatever is called. A call that lets go of what is under a key
leaves nothing there, and an entry that is not given away again and that is let go of wherever it is
cached is counted once for each reference a caller holds. -/
theorem run_conserves (calls : List Call) : (run calls).Conserved ∧
    (∀ call place key, (run calls).LetsGo place key call →
      ∀ c, (run (calls ++ [call])).cacheAt? place = some c → key ∉ c.slots.map (·.key)) ∧
    ∀ more r, (run calls).refs.Shared r →
      Throughout (fun h call => ¬ h.Gives r call) (run calls) more →
      (∀ place key, (run calls).Holds r place key →
        Sometime (fun h call => h.LetsGo place key call) (run calls) more) →
      (run (calls ++ more)).refs.count r = (run (calls ++ more)).handles.countP (·.Same r) := by
  refine ⟨conserved_run calls, fun call place key hgoes c hplace => ?_,
    fun more r hshared hgives hgone => ?_⟩
  · rw [run, List.foldl_append] at hplace
    exact notMem_of_letsGo (contiguous_run calls) hgoes hplace
  · have hstart : (run calls).Confined r ((run calls).Holds r) :=
      ⟨hshared, fun place c hplace slot hslot hsame => ⟨c, hplace, slot, hslot, rfl, hsame⟩⟩
    have hend := hstart.foldl (contiguous_run calls) hgives
    rw [run, ← List.foldl_append, ← run] at hend
    have hnone : (run (calls ++ more)).slots.countP (fun slot => slot.ref.Same r) = 0 := by
      refine List.countP_eq_zero.mpr fun slot hslot hsame => ?_
      obtain ⟨place, c, hplace, hslot⟩ := exists_place_of_mem_slots hslot
      obtain ⟨hheld, hkept⟩ := hend.keys place c hplace slot hslot (of_decide_eq_true hsame)
      exact hkept (hgone place slot.key hheld)
    rw [(conserved_run (calls ++ more)).counts r, hnone, Nat.add_zero]

def sampleSpread : List Call :=
  [.wrap (.sample 5), .newCache, .newCache,
    .newSegment { dataDir := "d", policy := .strict, maxEntrySize := 64 } (.opening 5),
    .useCache 0 (.put ⟨1, 5⟩ 0 .wholeAppend), .useCache 1 (.put ⟨2, 5⟩ 0 .wholeAppend),
    .useSegment 0 (.append .wholeAppend 0)]

def sampleGathered : List Call :=
  [.useCache 0 .evict, .useCache 1 .close, .useSegment 0 (.truncate 5)]

/-- Besides the caller, two caches and a segment hold the entry, and then none of them does. -/
theorem gathered_sample_counted_once : (run sampleSpread).refs.count ⟨0, .sample 5⟩ = 4 ∧
    (∀ c, (run (sampleSpread ++ [.useSegment 0 (.truncate 5)])).cacheAt? (.segment 0) = some c →
      ⟨1, 5⟩ ∉ c.slots.map (·.key)) ∧
    (run (sampleSpread ++ sampleGathered)).refs.count ⟨0, .sample 5⟩ = 1 := by
  obtain ⟨-, hleft, hcounted⟩ := run_conserves sampleSpread
  have hshared : (run sampleSpread).refs.Shared ⟨0, .sample 5⟩ := Nat.zero_lt_one
  refine ⟨rfl, hleft _ _ _ ?_, (hcounted sampleGathered _ hshared ?_ ?_).trans rfl⟩
  · refine ⟨rfl, _, rfl, ⟨_, rfl⟩, _, List.mem_singleton_self _, ?_, rfl⟩
    decide
  · exact ⟨id, id, id, trivial⟩
  · rintro place key ⟨c, hplace, slot, hslot, rfl, -⟩
    rcases place with (_ | _ | k) | (_ | k)
    · exact .inl ⟨rfl, trivial⟩
    · exact .inr (.inl ⟨rfl, trivial⟩)
    · cases hplace
    · cases hplace
      obtain rfl := List.mem_singleton.mp hslot
      refine .inr (.inr (.inl ⟨rfl, _, rfl, ⟨_, rfl⟩, _, List.mem_singleton_self _, ?_, rfl⟩))
      decide
    · cases hplace

end Holdings

end SegmentedLog
