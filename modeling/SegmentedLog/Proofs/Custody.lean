import SegmentedLog.Proofs.CacheInvariants
import SegmentedLog.Proofs.Reconstruction
import SegmentedLog.Proofs.Sharing

/-! # References in the custody of segments

Whatever a segment is called for, and however the call ends, the references its cache holds and
those held elsewhere remain all that are counted. A call that hands out a reference adds it to those
held elsewhere; what is taken for the time of a call is given up in the end.
-/

namespace SegmentedLog

open Stepwise

theorem Cache.balanced_invariant (others : List EntryRef) :
    Invariant fun c refs => c.Balanced refs others :=
  ⟨fun _ => Balanced.put, fun key hc => hc.remove key, Balanced.evict, Balanced.close⟩

namespace Session

variable {s : Session} {others : List EntryRef} {r : EntryRef} {key : TermIndex}

def Balanced (others : List EntryRef) : Session → Prop :=
  CacheHas fun c refs => c.Balanced refs others

theorem ends_cached? (key : TermIndex) (h : s.Balanced others) :
    Ends (fun found => Balanced (found.toList ++ others)) (Balanced others) (cached? key) s := by
  unfold cached?
  refine Ends.get_bind ?_
  split
  · exact .of_ok rfl h
  · next hget => exact .of_ok rfl (Cache.Balanced.of_get? h hget)

end Session

namespace Loader

variable {l : Loading} {others : List EntryRef} {found : Option EntryRef}

def Balanced (others : List EntryRef) : Loading → Prop :=
  CacheHas fun c refs => c.Balanced refs others

/-- The loader holds what it has found, and nothing else. -/
theorem ends_receive (key : TermIndex) (e : LogEntry) (h : Balanced (found.toList ++ others) l) :
    Ends (fun found => Balanced (found.toList ++ others)) (Balanced others)
      (receive key found e) l := by
  have hwrapped := Cache.Balanced.cons h fun _ hheld => hheld.wrap e
  unfold receive
  refine Ends.get_bind ?_
  dsimp only
  split
  · exact .of_error rfl hwrapped.release.releaseAll
  · next hput =>
    have hplaced := hwrapped.put hput
    split
    · exact .of_ok rfl (hplaced.perm List.perm_middle.symm).releaseAll
    · exact .of_ok rfl hplaced.release

theorem ends_load (key : TermIndex) (range : SegmentRange) (h : Balanced others l) :
    Ends (fun r => Balanced (r :: others)) (Balanced others) (load key range) l := by
  have hread (entries : List LogEntry) :
      Ends (fun found => Balanced (found.toList ++ others)) (Balanced others)
        (entries.foldlM (receive key) none) l :=
    Ends.foldlM (fun _ e _ hl => ends_receive key e hl) entries h
  unfold load
  refine Ends.get_bind ?_
  dsimp only
  generalize l.disk.scan (l.loader.context.file range) range l.loader.context.maxEntrySize = scan
  refine (hread scan.entries).bind fun found l hl => ?_
  have hgiven : l.cache.Balanced (l.refs.releaseAll found.toList) others :=
    Cache.Balanced.releaseAll hl
  split
  · exact .of_error rfl hgiven
  · refine Ends.modify_bind ?_
    split
    · exact .of_error rfl hgiven
    · cases found with
      | some r => exact .of_ok rfl hl
      | none => exact .of_error rfl hl

end Loader

namespace Session

variable {s : Session} {others : List EntryRef}

/-- An entry that is read is handed out with one more reference. -/
theorem ends_load (key : TermIndex) (h : s.Balanced others) :
    Ends (fun r => Balanced (r :: others)) (Balanced others) (load key) s := by
  refine (ends_cached? key h).bind fun found t ht => ?_
  cases found with
  | some r => exact .of_ok rfl ht
  | none =>
    refine Ends.get_bind ?_
    dsimp only
    split
    · exact ends_explain key (ends_onLoader (Loader.ends_load key _ ht))
    · exact .of_error rfl ht

end Session

namespace Host

variable {host : Host} {s : Session} {seg : Segment} {others : List EntryRef}
  {J : Cache → RefCounts → Prop} {H : RefCounts → Prop}

/-- Whether taking entries in that were read keeps what is so of the cache and the counts. It is so
of an empty cache wherever something is so of the counts, and that is so again once what the cache
holds is given up. -/
structure Keeps (J : Cache → RefCounts → Prop) (H : RefCounts → Prop) : Prop where
  empty : ∀ {refs : RefCounts}, H refs → J {} refs
  takeRead : ∀ {s : Session} (keep : Bool) (e : LogEntry),
    s.CacheHas J → Leaves (Session.CacheHas J) (takeRead keep e) s
  drop : ∀ {c : Cache} {refs : RefCounts}, J c refs → H (refs.releaseAll c.refsHeld)

theorem ends_takeScan (hJ : Keeps J H) (scan : Scan) (policy : CorruptionPolicy) (keep : Bool)
    (h : s.CacheHas J) :
    Ends (fun _ t => t.CacheHas J ∧ (scan.entries = [] → t.segment = s.segment))
      (Session.CacheHas J) (takeScan scan policy keep) s := by
  have hread := Leaves.forM (fun e _ => hJ.takeRead keep e) scan.entries h
  refine Ends.bind (Q := fun _ t => t.CacheHas J ∧ (scan.entries = [] → t.segment = s.segment))
    ⟨fun hok => ⟨hread.of_ok hok, fun hnil => ?_⟩, fun herror => hread.of_error herror⟩
    fun _ t ht => ?_
  · rw [hnil] at hok
    rw [(pure_eq_ok.mp hok).2]
  · dsimp only
    split
    · exact .of_error rfl ht.1
    · refine Ends.modify_bind ?_
      split
      · exact .of_error rfl ht.1
      · exact .of_ok rfl ht

theorem ends_withSegment (hJ : Keeps J H) {m : Session.Step Unit} {Q : Segment → Host → Prop}
    (hm : Ends (fun _ s => Q s.segment s.toHost) (Session.CacheHas J) m
      { host with segment := seg }) :
    Ends Q (fun host => H host.refs) (withSegment seg m) host := by
  cases hrun : m { host with segment := seg } with
  | ok _ s => exact .of_ok (withSegment_of_ok hrun) (hm.ok hrun)
  | error cause s =>
    exact .of_error (withSegment_of_error hrun) (hJ.drop (hm.error hrun))

theorem ends_orLetGo (hJ : Keeps J H) {m : Step Unit}
    (hm : Within besidesDisk (fun _ => True) m) (h : J seg.cache host.refs) :
    Ends (fun _ host => J seg.cache host.refs) (fun host => H host.refs) (orLetGo seg m)
      host := by
  have hkept : Leaves (fun host : Host => J seg.cache host.refs) m host :=
    .of_within (J := fun kept => J seg.cache kept.1) hm h
  cases hrun : m host with
  | ok _ after => exact .of_ok (orLetGo_of_ok hrun) (hkept.of_ok hrun)
  | error cause after =>
    exact .of_error (orLetGo_of_error hrun) (hJ.drop (hkept.of_error hrun))

def Leaving (J : Cache → RefCounts → Prop) (H : RefCounts → Prop) : Option Segment → Host → Prop
  | some seg, host => J seg.cache host.refs
  | none, host => H host.refs

theorem ends_reconcile (hJ : Keeps J H) (path : String) (range : SegmentRange) (count : Nat)
    (h : J seg.cache host.refs) (hnone : count = 0 → seg.cache.refsHeld = []) :
    Ends (Leaving J H) (fun host => H host.refs) (reconcile path range count seg) host := by
  unfold reconcile
  split
  · next hcount =>
    have hothers : H host.refs := by
      have hdropped := hJ.drop h
      rw [hnone hcount] at hdropped
      exact hdropped
    have hremoved : Leaves (fun host : Host => H host.refs) (removeIfThere path) host :=
      .of_within (J := fun kept => H kept.1) (removeIfThere_within path) hothers
    exact (Ends.of_leaves hremoved).bind fun _ t ht => .of_ok rfl ht
  · refine (ends_orLetGo hJ (.bind (cutFile_within path seg.fileSize) fun _ => ?_) h).bind
      fun _ t ht => .of_ok rfl ht
    dsimp only
    split
    · exact .pure _
    · exact .throw trivial

theorem ends_loadSegment (hJ : Keeps J H) (context : SegmentContext) (path : String)
    (range : SegmentRange) (keep : Bool) (h : H host.refs) :
    Ends (Leaving J H) (fun host => H host.refs) (loadSegment context path range keep) host := by
  cases hseg : Segment.ofRange context range with
  | error fault => exact .of_error (loadSegment_of_fault hseg) h
  | ok seg =>
    obtain ⟨-, -, hcache, -, -⟩ := Segment.holds_of_ofRange hseg
    have hnew : Session.CacheHas J { host with segment := seg } := by
      change J seg.cache host.refs
      rw [hcache]
      exact hJ.empty h
    have hwith (scan : Scan) : Ends
        (fun seg' after => J seg'.cache after.refs ∧ (scan.entries = [] → seg' = seg))
        (fun host => H host.refs)
        (withSegment seg (takeScan scan context.policy (keep || range.isOpen))) host :=
      ends_withSegment hJ (ends_takeScan hJ scan _ _ hnew)
    refine Ends.of_eq (loadSegment_of_range hseg) ?_
    refine (hwith _).bind fun seg' after hafter =>
      ends_reconcile hJ _ _ _ hafter.1 fun hcount => ?_
    rw [hafter.2 (List.length_eq_zero_iff.mp hcount), hcache]
    rfl

theorem leaves_takeRead_balanced (keep : Bool) (e : LogEntry) (h : s.Balanced others) :
    Leaves (Session.Balanced others) (takeRead keep e) s := by
  have hshared : ({ s with refs := (s.refs.wrap e).2 } : Session).Balanced
      ((s.refs.wrap e).1 :: others) := Cache.Balanced.cons h fun _ hheld => hheld.wrap e
  have htake := Session.leaves_take (r := (s.refs.wrap e).1)
    (Cache.balanced_invariant ((s.refs.wrap e).1 :: others)) trivial .load keep hshared
  unfold Leaves takeRead at *
  dsimp only
  split at htake
  · next hrun =>
    rw [hrun]
    exact Cache.Balanced.release htake
  · next hrun =>
    rw [hrun]
    exact Cache.Balanced.release htake

/-- A segment that is reconstructed holds the references in its cache, and nothing else is held that
was not. -/
theorem keeps_balanced (others : List EntryRef) :
    Keeps (fun c refs => c.Balanced refs others) fun refs => refs.Balances others :=
  ⟨Cache.balanced_empty, leaves_takeRead_balanced, fun h => h.balances.releaseAll⟩

theorem leaves_takeRead {given : EntryRef → Prop} (hJ : Cache.LoadInvariant given J) (keep : Bool)
    (e : LogEntry) (h : s.CacheHas J) : Leaves (Session.CacheHas J) (takeRead keep e) s := by
  obtain ⟨hgiven, hwrapped⟩ := hJ.wrap e h
  have htake := Session.leaves_take hJ.toInvariantFor hgiven .load keep
    (s := { s with refs := (s.refs.wrap e).2 }) hwrapped
  unfold Leaves takeRead at *
  dsimp only
  split at htake
  · next hrun =>
    rw [hrun]
    exact hJ.release _ htake
  · next hrun =>
    rw [hrun]
    exact hJ.release _ htake

end Host

end SegmentedLog
