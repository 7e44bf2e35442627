import SegmentedLog.Proofs.Custody

/-! # Conservation of references

Callers hold references of their own and work on any number of caches and segments, which share
entries with them and with each other. Whatever is called, in any order and however it ends, an
entry is counted once for each reference a caller holds and once for each slot that holds one.
-/

namespace SegmentedLog

open Stepwise

/-- What callers have: references to entries, caches and segments, all on one host. The place of a
cache or a segment that was dropped stays empty. -/
structure Holdings extends Host where
  handles : List EntryRef := []
  caches : List (Option Cache) := []
  segments : List (Option Segment) := []

namespace Holdings

def cache? (h : Holdings) (k : Nat) : Option Cache := h.caches[k]?.join

def segment? (h : Holdings) (k : Nat) : Option Segment := h.segments[k]?.join

def allCaches (h : Holdings) : List Cache :=
  h.caches.reduceOption ++ h.segments.reduceOption.map (·.cache)

def slots (h : Holdings) : List Cache.Slot := h.allCaches.flatMap (·.slots)

/-- What a cache is used for. An entry is put in by the place of a reference to it. -/
inductive CacheUse where
  | put (key : TermIndex) (handle : Nat) (purpose : SizePurpose)
  | get (key : TermIndex)
  | remove (key : TermIndex)
  | evict
  | close

namespace CacheUse

/-- The references that are handed out, the cache and the counts. Where putting an entry in fails,
nothing has changed. -/
def apply (use : CacheUse) (handles : List EntryRef) (c : Cache) (refs : RefCounts) :
    List EntryRef × Cache × RefCounts :=
  match use with
  | put key handle purpose =>
    match handles[handle]?.map fun r => c.put refs key r purpose with
    | some (.ok placed) => ([], placed)
    | some (.error _) | none => ([], c, refs)
  | get key =>
    match c.get? refs key with
    | some (r, refs) => ([r], c, refs)
    | none => ([], c, refs)
  | remove key => ([], c.remove refs key)
  | evict => ([], c.evict refs)
  | close => ([], c.close refs)

end CacheUse

inductive SegmentUse where
  | append (purpose : SizePurpose) (handle : Nat)
  | lookUp (key : TermIndex)
  | load (key : TermIndex)
  | truncate (first : UInt64)
  | close
  | clear
  | evict

namespace SegmentUse

def step (use : SegmentUse) (handles : List EntryRef) : Session.Step (List EntryRef) :=
  match use with
  | append purpose handle => do
    if let some r := handles[handle]? then Session.append purpose r
    pure []
  | lookUp key => do
    let found ← Session.cached? key
    pure found.toList
  | load key => do
    let r ← Session.load key
    pure [r]
  | truncate first => do
    Session.truncate first
    pure []
  | close => do
    Session.close
    pure []
  | clear => do
    Session.clear
    pure []
  | evict => do
    Session.evict
    pure []

end SegmentUse

inductive Call where
  | wrap (e : LogEntry)
  | retain (handle : Nat)
  | release (handle : Nat)
  | newCache
  | useCache (cache : Nat) (use : CacheUse)
  | dropCache (cache : Nat)
  | newSegment (context : SegmentContext) (range : SegmentRange)
  | loadSegment (context : SegmentContext) (path : String) (range : SegmentRange) (keep : Bool)
  | useSegment (segment : Nat) (use : SegmentUse)
  | dropSegment (segment : Nat)
  /-- Others change the disk, and the sink that entries go to. -/
  | outside (disk : Disk) (sink : Sink)

variable (h : Holdings)

def useCache (k : Nat) (use : CacheUse) : Holdings :=
  match h.cache? k with
  | none => h
  | some c =>
    let (taken, c, refs) := use.apply h.handles c h.refs
    { h with refs, handles := taken ++ h.handles, caches := h.caches.set k (some c) }

/-- What a use of a segment did before it failed stays done. -/
def useSegment (k : Nat) (use : SegmentUse) : Holdings :=
  match h.segment? k with
  | none => h
  | some segment =>
    match use.step h.handles { h.toHost with segment } with
    | .ok taken s =>
      { h with
        toHost := s.toHost
        handles := taken ++ h.handles
        segments := h.segments.set k (some s.segment) }
    | .error _ s =>
      { h with
        toHost := s.toHost
        segments := h.segments.set k (some s.segment) }

def loadSegment (context : SegmentContext) (path : String) (range : SegmentRange) (keep : Bool) :
    Holdings :=
  match Host.loadSegment context path range keep h.toHost with
  | .ok seg? host =>
    { h with toHost := host, segments := h.segments ++ seg?.toList.map some }
  | .error _ host => { h with toHost := host }

/-- What a call leaves, also if it fails. A call on what is not there does nothing. -/
def after : Call → Holdings
  | .wrap e =>
    let (r, refs) := h.refs.wrap e
    { h with refs, handles := r :: h.handles }
  | .retain handle =>
    match h.handles[handle]? with
    | none => h
    | some r =>
      match h.refs.retain? r with
      | none => h
      | some refs => { h with refs, handles := r :: h.handles }
  | .release handle =>
    match h.handles[handle]? with
    | none => h
    | some r => { h with refs := h.refs.release r, handles := h.handles.eraseIdx handle }
  | .newCache => { h with caches := h.caches ++ [some {}] }
  | .useCache k use => h.useCache k use
  | .dropCache k =>
    match h.cache? k with
    | none => h
    | some c => { h with refs := h.refs.releaseAll c.refsHeld, caches := h.caches.set k none }
  | .newSegment context range =>
    match Segment.ofRange context range with
    | .ok seg => { h with segments := h.segments ++ [some seg] }
    | .error _ => h
  | .loadSegment context path range keep => h.loadSegment context path range keep
  | .useSegment k use => h.useSegment k use
  | .dropSegment k =>
    match h.segment? k with
    | none => h
    | some seg => { h with refs := seg.drop h.refs, segments := h.segments.set k none }
  | .outside disk sink => { h with disk, sink }

def run (calls : List Call) : Holdings := calls.foldl after {}

/-! ## What is held -/

/-- Whether every cache has one slot for a key, and what the callers and the caches hold is all that
is counted. -/
structure Balanced (refs : RefCounts) (handles : List EntryRef) (caches : List Cache) : Prop where
  keys : ∀ c ∈ caches, (c.slots.map (·.key)).Nodup
  balances : refs.Balances (handles ++ caches.flatMap (·.refsHeld))

variable {h} {refs refs' : RefCounts} {handles handles' : List EntryRef} {c c' : Cache}
  {caches caches' rest : List Cache}

/-- For one of the caches, the others hold what is held elsewhere. -/
theorem balanced_cons_iff : Balanced refs handles (c :: caches) ↔
    c.Balanced refs (handles ++ caches.flatMap (·.refsHeld)) ∧
      ∀ c ∈ caches, (c.slots.map (·.key)).Nodup := by
  have hperm := List.perm_append_comm_assoc handles c.refsHeld (caches.flatMap (·.refsHeld))
  constructor
  · rintro ⟨hkeys, hbalances⟩
    obtain ⟨hkey, hkeys⟩ := List.forall_mem_cons.mp hkeys
    exact ⟨⟨hkey, hbalances.perm hperm⟩, hkeys⟩
  · rintro ⟨⟨hkey, hbalances⟩, hkeys⟩
    exact ⟨List.forall_mem_cons.mpr ⟨hkey, hkeys⟩, hbalances.perm hperm.symm⟩

theorem Balanced.perm (hb : Balanced refs handles caches) (hperm : caches.Perm caches') :
    Balanced refs handles caches' :=
  ⟨fun c hc => hb.keys c (hperm.mem_iff.mpr hc),
    hb.balances.perm ((hperm.flatMap_right _).append_left handles)⟩

/-- What is done to one cache, with the other ones and the handles in mind, is done to all. -/
theorem Balanced.replace (hb : Balanced refs handles caches) (hold : caches.Perm (c :: rest))
    (hnew : caches'.Perm (c' :: rest))
    (hc : ∀ others, c.Balanced refs (handles ++ others) → c'.Balanced refs' (handles' ++ others)) :
    Balanced refs' handles' caches' := by
  obtain ⟨hbefore, hkeys⟩ := balanced_cons_iff.mp (hb.perm hold)
  exact Balanced.perm (balanced_cons_iff.mpr ⟨hc _ hbefore, hkeys⟩) hnew.symm

theorem Balanced.drop (hb : Balanced refs handles caches) (hold : caches.Perm (c :: rest)) :
    Balanced (refs.releaseAll c.refsHeld) handles rest := by
  obtain ⟨hbefore, hkeys⟩ := balanced_cons_iff.mp (hb.perm hold)
  exact ⟨hkeys, hbefore.balances.releaseAll⟩

theorem Balanced.cons_empty (hb : Balanced refs handles caches) :
    Balanced refs handles ({} :: caches) :=
  balanced_cons_iff.mpr ⟨Cache.balanced_empty hb.balances, hb.keys⟩

/-! ## One call -/

theorem CacheUse.balanced (use : CacheUse) (handles : List EntryRef) {others : List EntryRef}
    (hc : c.Balanced refs others) :
    let used := use.apply handles c refs
    used.2.1.Balanced used.2.2 (used.1 ++ others) := by
  cases use with
  | put key handle purpose =>
    unfold apply
    dsimp only
    split
    · next hput =>
      obtain ⟨r, -, hput⟩ := Option.map_eq_some_iff.mp hput
      exact hc.put hput
    · exact hc
    · exact hc
  | get key =>
    unfold apply
    dsimp only
    split
    · next hget => exact hc.of_get? hget
    · exact hc
  | remove key => exact hc.remove key
  | evict => exact hc.evict
  | close => exact hc.close

theorem SegmentUse.ends_step (use : SegmentUse) (handles : List EntryRef) {s : Session}
    {others : List EntryRef} (hs : s.Balanced others) :
    Ends (fun taken => Session.Balanced (taken ++ others)) (Session.Balanced others)
      (use.step handles) s := by
  have hquiet {m : Session.Step Unit} (hm : Leaves (Session.Balanced others) m s) :
      Ends (fun taken => Session.Balanced (taken ++ others)) (Session.Balanced others)
        (do m; pure []) s :=
    (Ends.of_leaves hm).bind fun _ _ ht => .of_ok rfl ht
  have hkept := Cache.balanced_invariant others
  cases use with
  | append purpose handle =>
    unfold step
    dsimp only
    split
    · exact hquiet (Session.leaves_append hkept trivial hs)
    · exact .of_ok rfl hs
  | lookUp key => exact (Session.ends_cached? key hs).bind fun _ _ ht => .of_ok rfl ht
  | load key => exact (Session.ends_load key hs).bind fun _ _ ht => .of_ok rfl ht
  | truncate first => exact hquiet (Session.leaves_truncate hkept first hs)
  | close => exact hquiet (Session.leaves_close hs)
  | clear => exact hquiet (Session.leaves_clear hkept hs)
  | evict => exact hquiet (Session.leaves_evict hkept hs)

section Places

variable {α : Type} {l : List α} {places : List (Option α)} {k : Nat} {a : α}

theorem perm_of_getElem? (h : l[k]? = some a) : l.Perm (a :: l.eraseIdx k) := by
  obtain ⟨hk, rfl⟩ := List.getElem?_eq_some_iff.mp h
  exact (List.getElem_cons_eraseIdx_perm hk).symm

theorem reduceOption_perm (h : places[k]?.join = some a) :
    places.reduceOption.Perm (a :: (places.eraseIdx k).reduceOption) :=
  (perm_of_getElem? (Option.join_eq_some_iff.mp h)).filterMap id

theorem reduceOption_set_perm (h : places[k]?.join = some a) (o : Option α) :
    (places.set k o).reduceOption.Perm (o.toList ++ (places.eraseIdx k).reduceOption) := by
  obtain ⟨hk, -⟩ := List.getElem?_eq_some_iff.mp (Option.join_eq_some_iff.mp h)
  refine ((List.set_perm_cons_eraseIdx hk o).filterMap id).trans (.of_eq ?_)
  cases o <;> rfl

end Places

variable {k : Nat} {seg : Segment}

theorem allCaches_perm_of_cache (hk : h.cache? k = some c) :
    h.allCaches.Perm (c :: ((h.caches.eraseIdx k).reduceOption ++
      h.segments.reduceOption.map (·.cache))) :=
  (reduceOption_perm hk).append_right _

theorem allCaches_perm_of_segment (hk : h.segment? k = some seg) :
    h.allCaches.Perm (seg.cache :: (h.caches.reduceOption ++
      (h.segments.eraseIdx k).reduceOption.map (·.cache))) :=
  (((reduceOption_perm hk).map (·.cache)).append_left _).trans List.perm_middle

theorem balanced_useCache (use : CacheUse) (hb : Balanced h.refs h.handles h.allCaches) :
    Balanced (h.useCache k use).refs (h.useCache k use).handles (h.useCache k use).allCaches := by
  unfold useCache
  split
  · exact hb
  · next c hk =>
    refine hb.replace (allCaches_perm_of_cache hk)
      ((reduceOption_set_perm hk (some _)).append_right _) fun others hc => ?_
    have hused := use.balanced h.handles hc
    dsimp only at hused
    rw [← List.append_assoc] at hused
    exact hused

theorem balanced_useSegment (use : SegmentUse) (hb : Balanced h.refs h.handles h.allCaches) :
    Balanced (h.useSegment k use).refs (h.useSegment k use).handles
      (h.useSegment k use).allCaches := by
  unfold useSegment
  split
  · exact hb
  · next seg hk =>
    have hnew (seg' : Segment) :=
      (((reduceOption_set_perm hk (some seg')).map (·.cache)).append_left
        h.caches.reduceOption).trans List.perm_middle
    have hused {others : List EntryRef} (hc : seg.cache.Balanced h.refs others) :=
      use.ends_step h.handles (s := { h.toHost with segment := seg }) hc
    split
    · next taken s hrun =>
      refine hb.replace (allCaches_perm_of_segment hk) (hnew s.segment) fun others hc => ?_
      have hafter := (hused hc).ok hrun
      rw [← List.append_assoc] at hafter
      exact hafter
    · next s hrun =>
      exact hb.replace (allCaches_perm_of_segment hk) (hnew s.segment) fun others hc =>
        (hused hc).error hrun

theorem allCaches_append_cache (h : Holdings) (c : Cache) :
    ({ h with caches := h.caches ++ [some c] } : Holdings).allCaches.Perm (c :: h.allCaches) := by
  simp only [allCaches, List.reduceOption_append, List.append_assoc]
  exact List.perm_middle

theorem allCaches_append_segment (h : Holdings) (seg : Segment) :
    ({ h with segments := h.segments ++ [some seg] } : Holdings).allCaches.Perm
      (seg.cache :: h.allCaches) := by
  simp only [allCaches, List.reduceOption_append, List.map_append]
  rw [← List.append_assoc]
  exact List.perm_append_singleton _ _

theorem balanced_loadSegment (context : SegmentContext) (path : String) (range : SegmentRange)
    (keep : Bool) (hb : Balanced h.refs h.handles h.allCaches) :
    Balanced (h.loadSegment context path range keep).refs
      (h.loadSegment context path range keep).handles
      (h.loadSegment context path range keep).allCaches := by
  have hkeeps := Host.keeps_balanced (h.handles ++ h.allCaches.flatMap (·.refsHeld))
  have hloaded : Ends _ _ (Host.loadSegment context path range keep) h.toHost :=
    Host.ends_loadSegment hkeeps context path range keep hb.balances
  unfold loadSegment
  split
  · next seg? host hrun =>
    have haccounted := hloaded.ok hrun
    cases seg? with
    | none =>
      rw [Option.toList_none, List.map_nil, List.append_nil]
      exact ⟨hb.keys, haccounted⟩
    | some seg =>
      exact Balanced.perm (balanced_cons_iff.mpr ⟨haccounted, hb.keys⟩)
        (allCaches_append_segment h seg).symm
  · next hrun => exact ⟨hb.keys, hloaded.error hrun⟩

/-- Whatever is called and however the call ends, what is held is all that is counted. -/
theorem balanced_after (call : Call) (hb : Balanced h.refs h.handles h.allCaches) :
    Balanced (h.after call).refs (h.after call).handles (h.after call).allCaches := by
  cases call with
  | wrap e => exact ⟨hb.keys, hb.balances.wrap e⟩
  | retain handle =>
    unfold after
    dsimp only
    split
    · exact hb
    · split
      · exact hb
      · next hretain => exact ⟨hb.keys, hb.balances.of_retain? hretain⟩
  | release handle =>
    unfold after
    dsimp only
    split
    · exact hb
    · next hr =>
      exact ⟨hb.keys, (hb.balances.perm ((perm_of_getElem? hr).append_right _)).release⟩
  | newCache => exact hb.cons_empty.perm (allCaches_append_cache h {}).symm
  | useCache k use => exact balanced_useCache use hb
  | dropCache k =>
    unfold after
    dsimp only
    split
    · exact hb
    · next hk =>
      exact (hb.drop (allCaches_perm_of_cache hk)).perm
        ((reduceOption_set_perm hk none).append_right _).symm
  | newSegment context range =>
    unfold after
    dsimp only
    split
    · next seg hseg =>
      obtain ⟨-, -, hcache, -, -⟩ := Segment.holds_of_ofRange hseg
      refine hb.cons_empty.perm ?_
      rw [← hcache]
      exact (allCaches_append_segment h seg).symm
    · exact hb
  | loadSegment context path range keep => exact balanced_loadSegment context path range keep hb
  | useSegment k use => exact balanced_useSegment use hb
  | dropSegment k =>
    unfold after
    dsimp only
    split
    · exact hb
    · next hk =>
      exact (hb.drop (allCaches_perm_of_segment hk)).perm
        (((reduceOption_set_perm hk none).map (·.cache)).append_left _).symm
  | outside disk sink => exact hb

/-! ## Runs -/

theorem balanced_run (calls : List Call) :
    Balanced (run calls).refs (run calls).handles (run calls).allCaches := by
  suffices hmore : ∀ h : Holdings, Balanced h.refs h.handles h.allCaches →
      Balanced (calls.foldl after h).refs (calls.foldl after h).handles
        (calls.foldl after h).allCaches from
    hmore {} ⟨nofun, RefCounts.balances_empty⟩
  induction calls with
  | nil => exact fun _ hb => hb
  | cons call calls ih => exact fun _ hb => ih _ (balanced_after call hb)

/-- What is so whenever nothing is held that is not counted, and nothing counted that is not
held. -/
structure Conserved (h : Holdings) : Prop where
  /-- An entry is counted once for each reference a caller holds and each slot of a cache. -/
  counts : ∀ r, h.refs.count r =
    h.handles.countP (·.Same r) + h.slots.countP fun slot => slot.ref.Same r
  /-- A cache has one slot for a key. -/
  keys : ∀ c ∈ h.allCaches, (c.slots.map (·.key)).Nodup
  /-- Of what is held, one more reference can be taken, and giving one up lowers its count by
  one. -/
  held : ∀ r, r ∈ h.handles ∨ r ∈ h.slots.map (·.ref) →
    (h.refs.retain? r).isSome ∧ (h.refs.release r).count r + 1 = h.refs.count r
  /-- A lookup misses in a closed cache and where there is nothing under the key, and not
  otherwise. -/
  misses : ∀ c ∈ h.allCaches, ∀ key,
    c.get? h.refs key = none ↔ c.isClosed ∨ ∀ slot ∈ c.slots, slot.key ≠ key

theorem conserved_run (calls : List Call) : (run calls).Conserved := by
  have hb := balanced_run calls
  generalize run calls = h at hb
  have hrefs : h.allCaches.flatMap (·.refsHeld) = h.slots.map (·.ref) := by
    rw [slots, List.map_flatMap]
    rfl
  have hcounts (r : EntryRef) : h.refs.count r =
      h.handles.countP (·.Same r) + h.slots.countP fun slot => slot.ref.Same r := by
    rw [hb.balances r, List.countP_append, hrefs, List.countP_map]
    rfl
  refine ⟨hcounts, hb.keys, fun r hr => ?_, fun c hc key => ?_⟩
  · have hmem : r ∈ h.handles ++ h.allCaches.flatMap (·.refsHeld) := by
      rw [hrefs]
      exact List.mem_append.mpr hr
    obtain ⟨refs, hretain⟩ := hb.balances.retain? hmem
    have hreleased := RefCounts.count_release (hb.balances.pos hmem) r
    rw [if_pos (show r.Same r from rfl)] at hreleased
    exact ⟨by rw [hretain]; rfl, hreleased⟩
  · have hone := (balanced_cons_iff.mp (hb.perm (List.perm_cons_erase hc))).1
    rw [hone.get?_eq_none_iff]
    constructor
    · exact .inr
    · rintro (hclosed | hmiss)
      · rw [Cache.slots_of_isClosed hclosed]
        nofun
      · exact hmiss

/-- An entry is cached under two keys and looked up, and its first reference is given up. -/
example : (run [.wrap (.sample 5), .newCache, .useCache 0 (.put ⟨1, 5⟩ 0 .wholeAppend),
    .useCache 0 (.put ⟨2, 5⟩ 0 .wholeAppend), .useCache 0 (.get ⟨1, 5⟩),
    .release 1]).refs.counts = #[3] := rfl

end Holdings

end SegmentedLog
