import SegmentedLog.Proofs.CacheSizes
import SegmentedLog.Proofs.EntryCodec

/-! # Caches as finite maps

Seen by its users a cache is a finite map from keys to references that can be closed. What the map
answers the cache answers, whatever happens to the counts beside it, as long as these count every
reference that is held. Its total is the sum of the sizes of the entries in the map.
-/

namespace SegmentedLog

open Stepwise

namespace Cache

inductive Use where
  | put (key : TermIndex) (r : EntryRef) (purpose : SizePurpose)
  | get (key : TermIndex)
  | remove (key : TermIndex)
  | evict
  | close

inductive Answer where
  | done
  | found (r? : Option EntryRef)
  /-- The use broke a rule, and nothing was done. -/
  | refused (cause : Fault)

def Answer.handed : Answer → List EntryRef
  | found r? => r?.toList
  | _ => []

def Use.apply (use : Use) (c : Cache) (refs : RefCounts) : Answer × Cache × RefCounts :=
  match use with
  | put key r purpose =>
    match c.put refs key r purpose with
    | .ok placed => (.done, placed)
    | .error cause => (.refused cause, c, refs)
  | get key =>
    match c.get? refs key with
    | some (r, refs) => (.found (some r), c, refs)
    | none => (.found none, c, refs)
  | remove key => (.done, c.remove refs key)
  | evict => (.done, c.evict refs)
  | close => (.done, c.close refs)

def Use.Of (use : Use) (held : List EntryRef) : Prop :=
  match use with
  | put _ r _ => r ∈ held
  | _ => True

instance (use : Use) (held : List EntryRef) : Decidable (use.Of held) := by
  cases use <;> unfold Use.Of <;> infer_instance

/-! ## Finite maps -/

/-- A finite map of references that is closed or not. -/
structure Map where
  held : Finmap fun _ : TermIndex => EntryRef := ∅
  closed : Bool := false

namespace Map

variable {m : Map} {use : Use} {uses : List Use}

/-- What a use makes of a map. An entry that may not be measured does not get in. -/
def after (m : Map) : Use → Map
  | .put key r purpose =>
    if purpose.Admits r.entry ∧ m.closed = false then { m with held := m.held.insert key r } else m
  | .get _ => m
  | .remove key => { m with held := m.held.erase key }
  | .evict => { m with held := ∅ }
  | .close => { held := ∅, closed := true }

def answer (m : Map) : Use → Answer
  | .put _ r purpose =>
    if purpose.Admits r.entry then .done else .refused (.stateData purpose r.entry.key)
  | .get key => .found (m.held.lookup key)
  | .remove _ | .evict | .close => .done

def answers (m : Map) : List Use → List Answer
  | [] => []
  | use :: uses => m.answer use :: (m.after use).answers uses

def footprint (m : Map) : Nat := (m.held.entries.map fun pair => pair.2.entry.footprint).sum

theorem answers_concat (m : Map) (uses : List Use) (use : Use) :
    m.answers (uses ++ [use]) = m.answers uses ++ [(uses.foldl after m).answer use] := by
  induction uses generalizing m with
  | nil => rfl
  | cons first uses ih => exact congrArg (m.answer first :: ·) (ih (m.after first))

/-- Nothing gets out of a closed map, as nothing gets in. -/
theorem after_of_closed (use : Use) : after ⟨∅, true⟩ use = ⟨∅, true⟩ := by
  cases use with
  | put key r purpose => exact if_neg fun h => Bool.noConfusion h.2
  | remove key =>
    refine congrArg (Map.mk · true) (Finmap.ext_lookup fun other => ?_)
    by_cases hother : other = key
    · rw [hother, Finmap.lookup_erase, Finmap.lookup_empty]
    · rw [Finmap.lookup_erase_ne hother]
  | get | evict | close => rfl

theorem foldl_after_of_closed (uses : List Use) : uses.foldl after ⟨∅, true⟩ = ⟨∅, true⟩ := by
  induction uses with
  | nil => rfl
  | cons use uses ih => rw [List.foldl_cons, after_of_closed, ih]

theorem foldl_after_of_close (h : .close ∈ uses) (m : Map) :
    uses.foldl after m = ⟨∅, true⟩ := by
  obtain ⟨before, behind, rfl⟩ := List.append_of_mem h
  rw [List.foldl_append, List.foldl_cons]
  exact foldl_after_of_closed behind

theorem closed_foldl_after (h : .close ∉ uses) : (uses.foldl after m).closed = m.closed := by
  induction uses generalizing m with
  | nil => rfl
  | cons use uses ih =>
    rw [List.mem_cons, not_or] at h
    rw [List.foldl_cons, ih h.2]
    cases use with
    | close => exact absurd rfl h.1
    | put key r purpose =>
      change (if _ then _ else m).closed = m.closed
      split <;> rfl
    | get | remove | evict => rfl

end Map

/-! ## A cache as a map -/

variable {c c' : Cache} {refs refs' : RefCounts} {key : TermIndex} {r : EntryRef} {use : Use}
  {held : List EntryRef}

def Slot.pair (slot : Slot) : Sigma fun _ : TermIndex => EntryRef := ⟨slot.key, slot.ref⟩

def toMap (c : Cache) : Map := ⟨(c.slots.map Slot.pair).toFinmap, c.isClosed⟩

theorem lookup_toMap (c : Cache) (key : TermIndex) :
    c.toMap.held.lookup key = (c.find? key).map (·.ref) := by
  rw [toMap, Finmap.dlookup_list_toFinmap, find?]
  induction c.slots with
  | nil => rfl
  | cons slot slots ih =>
    by_cases hkey : slot.key = key
    · rw [List.find?_cons_of_pos (by simpa using hkey), ← hkey]
      exact List.dlookup_cons_eq _ _ _
    · rw [List.find?_cons_of_neg (by simpa using hkey), ← ih]
      exact List.dlookup_cons_ne _ _ (Ne.symm hkey)

theorem entries_toMap (hkeys : (c.slots.map (·.key)).Nodup) :
    c.toMap.held.entries = c.slots.map Slot.pair := by
  change ((c.slots.map Slot.pair).dedupKeys : Multiset (Sigma fun _ : TermIndex => EntryRef)) = _
  refine congrArg _ ?_
  generalize c.slots = slots at hkeys
  induction slots with
  | nil => rfl
  | cons slot slots ih =>
    rw [List.map_cons, List.nodup_cons] at hkeys
    have hnew : slot.key ∉ (slots.map Slot.pair).keys := by
      rw [List.keys, List.map_map]
      exact hkeys.1
    rw [List.map_cons, List.dedupKeys_cons, ih hkeys.2, List.kinsert_def]
    exact congrArg (slot.pair :: ·) (List.kerase_of_notMem_keys hnew)

theorem card_toMap (hkeys : (c.slots.map (·.key)).Nodup) :
    c.toMap.held.entries.card = c.entries := by
  rw [entries_toMap hkeys, Multiset.coe_card, List.length_map, entries]

theorem footprint_toMap (hkeys : (c.slots.map (·.key)).Nodup) :
    c.toMap.footprint = c.footprint := by
  rw [Map.footprint, entries_toMap hkeys, Multiset.map_coe, Multiset.sum_coe, footprint, refsHeld,
    List.map_map, List.map_map]
  rfl

/-! ### One use -/

theorem toMap_remove (c : Cache) (refs : RefCounts) (key : TermIndex) :
    (c.remove refs key).1.toMap = ⟨c.toMap.held.erase key, c.isClosed⟩ := by
  refine congrArg₂ Map.mk (Finmap.ext_lookup fun other => ?_) isClosed_remove
  change (c.remove refs key).1.toMap.held.lookup other = _
  rw [lookup_toMap, find?_remove]
  by_cases hother : other = key
  · rw [if_pos hother, hother, Finmap.lookup_erase]
    rfl
  · rw [if_neg hother, Finmap.lookup_erase_ne hother, lookup_toMap]

theorem toMap_placed (c : Cache) (refs : RefCounts) (key : TermIndex) (r : EntryRef) :
    (c.placed refs key r).toMap = ⟨c.toMap.held.insert key r, false⟩ := by
  refine congrArg₂ Map.mk (Finmap.ext_lookup fun other => ?_) rfl
  change (c.placed refs key r).toMap.held.lookup other = _
  rw [lookup_toMap, find?_placed]
  by_cases hother : other = key
  · rw [if_pos hother, hother, Finmap.lookup_insert]
    rfl
  · rw [if_neg hother, Finmap.lookup_insert_of_ne _ hother, lookup_toMap]

theorem toMap_of_isClosed (h : c.isClosed = true) : c.toMap = ⟨∅, true⟩ := by
  rw [toMap, slots_of_isClosed h, h]
  rfl

theorem toMap_put {purpose : SizePurpose} {retained : RefCounts}
    (hretain : refs.retain? r = some retained)
    (hput : c.put refs key r purpose = .ok (c', refs')) :
    c'.toMap = if c.isClosed = false then ⟨c.toMap.held.insert key r, c.isClosed⟩ else c.toMap := by
  rcases put_eq_ok.mp hput with ⟨-, ⟨hclosed | hnone, rfl, -⟩ | ⟨_, hopen, -, rfl, -⟩⟩
  · rw [hclosed, if_neg Bool.noConfusion]
  · cases hretain.symm.trans hnone
  · rw [toMap_placed, hopen, if_pos rfl]

theorem toMap_evict (c : Cache) (refs : RefCounts) :
    (c.evict refs).1.toMap = ⟨∅, c.isClosed⟩ := by
  unfold evict isClosed
  cases hcontents : c.contents with
  | active slots => rfl
  | closed => exact toMap_of_isClosed (by rw [isClosed, hcontents]; rfl)

theorem toMap_close (c : Cache) (refs : RefCounts) : (c.close refs).1.toMap = ⟨∅, true⟩ := by
  unfold close
  cases hcontents : c.contents with
  | active slots => rfl
  | closed => exact toMap_of_isClosed (by rw [isClosed, hcontents]; rfl)

theorem apply_put_of_ok {purpose : SizePurpose} {placed : Cache × RefCounts}
    (h : c.put refs key r purpose = .ok placed) :
    (Use.put key r purpose).apply c refs = (.done, placed) := by
  simp only [Use.apply, h]

theorem apply_put_of_not_admits {purpose : SizePurpose} (h : ¬ purpose.Admits r.entry) :
    (Use.put key r purpose).apply c refs =
      (.refused (.stateData purpose r.entry.key), c, refs) := by
  simp only [Use.apply, put_of_not_admits h]

/-- A use changes a cache as it changes the map, and is answered as by the map. -/
theorem apply_refines (hc : c.Balanced refs held) (hof : use.Of held) :
    (use.apply c refs).1 = c.toMap.answer use ∧
      (use.apply c refs).2.1.toMap = c.toMap.after use := by
  cases use with
  | put key r purpose =>
    by_cases hadmits : purpose.Admits r.entry
    · obtain ⟨c', refs', hput⟩ := put_of_admits c refs key hadmits
      obtain ⟨retained, hretain⟩ := hc.balances.retain? (List.mem_append_right c.refsHeld hof)
      rw [apply_put_of_ok hput, Map.answer, if_pos hadmits, Map.after, toMap_put hretain hput]
      simp only [hadmits, true_and]
      rfl
    · rw [apply_put_of_not_admits hadmits, Map.answer, if_neg hadmits, Map.after,
        if_neg fun h => hadmits h.1]
      exact ⟨rfl, rfl⟩
  | get key =>
    have hfound := hc.fst_get? key
    rw [← lookup_toMap] at hfound
    cases hget : c.get? refs key with
    | none =>
      rw [hget] at hfound
      simp only [Use.apply, hget, Map.answer, ← hfound]
      exact ⟨rfl, rfl⟩
    | some found =>
      rw [hget] at hfound
      simp only [Use.apply, hget, Map.answer, ← hfound]
      exact ⟨rfl, rfl⟩
  | remove key => exact ⟨rfl, toMap_remove c refs key⟩
  | evict => exact ⟨rfl, toMap_evict c refs⟩
  | close => exact ⟨rfl, toMap_close c refs⟩

theorem Balanced.apply (hc : c.Balanced refs held) (use : Use) :
    (use.apply c refs).2.1.Balanced (use.apply c refs).2.2
      ((use.apply c refs).1.handed ++ held) := by
  cases use with
  | put key r purpose =>
    unfold Use.apply
    dsimp only
    split
    · next hput => exact hc.put hput
    · exact hc
  | get key =>
    unfold Use.apply
    dsimp only
    split
    · next hget => exact hc.of_get? hget
    · exact hc
  | remove key => exact hc.remove key
  | evict => exact hc.evict
  | close => exact hc.close

theorem Counted.apply (hc : c.Counted) (use : Use) (refs : RefCounts) :
    (use.apply c refs).2.1.Counted := by
  cases use with
  | put key r purpose =>
    unfold Use.apply
    dsimp only
    split
    · next hput => exact hc.put hput
    · exact hc
  | get key =>
    unfold Use.apply
    dsimp only
    split <;> exact hc
  | remove key => exact hc.remove refs key
  | evict => exact hc.evict refs
  | close => exact hc.close refs

/-! ## Runs -/

/-- A cache in use: the counts, the references held beside it, and the answers it gave. -/
structure Bench where
  cache : Cache
  refs : RefCounts
  held : List EntryRef
  answers : List Answer := []

namespace Bench

variable {b b' : Bench} {uses : List Use}

/-- What a use leaves. An entry is put in by a reference that is held. -/
def use? (use : Use) (b : Bench) : Option Bench :=
  if use.Of b.held then
    let (answer, cache, refs) := use.apply b.cache b.refs
    some { cache, refs, held := answer.handed ++ b.held, answers := b.answers ++ [answer] }
  else none

/-- Whether nothing changed but the references held elsewhere, which are counted as before. -/
def Meanwhile (b b' : Bench) : Prop :=
  b'.cache = b.cache ∧ b'.answers = b.answers ∧ b'.cache.Balanced b'.refs b'.held

abbrev Run (b : Bench) (uses : List Use) (b' : Bench) : Prop :=
  Stepwise.Run use? Meanwhile b uses b'

structure Follows (b : Bench) (uses : List Use) : Prop where
  balanced : b.cache.Balanced b.refs b.held
  counted : b.cache.Counted
  toMap : b.cache.toMap = uses.foldl Map.after {}
  answers : b.answers = Map.answers {} uses

theorem Follows.concat (h : b.Follows uses) (huse : use? use b = some b') :
    b'.Follows (uses ++ [use]) := by
  obtain ⟨hof, heq⟩ := Option.ite_none_right_eq_some.mp huse
  obtain rfl := Option.some.inj heq
  obtain ⟨hanswer, hmap⟩ := apply_refines h.balanced hof
  refine ⟨h.balanced.apply use, h.counted.apply use b.refs, ?_, ?_⟩
  · rw [List.foldl_concat, ← h.toMap]
    exact hmap
  · rw [Map.answers_concat, ← h.toMap, ← h.answers]
    exact congrArg (b.answers ++ [·]) hanswer

theorem follows_of_run (hrefs : refs.Balances held) (hrun : Run ⟨{}, refs, held, []⟩ uses b) :
    b.Follows uses := by
  induction hrun with
  | nil => exact ⟨balanced_empty hrefs, counted_empty, rfl, rfl⟩
  | act _ huse ih => exact ih.concat huse
  | env _ hmeanwhile ih =>
    obtain ⟨hcache, hanswers, hbalanced⟩ := hmeanwhile
    refine ⟨hbalanced, ?_, ?_, hanswers.trans ih.answers⟩
    · rw [hcache]
      exact ih.counted
    · rw [hcache]
      exact ih.toMap

/-- What users see of a cache that is some map. -/
structure Shows (b : Bench) (m : Map) : Prop where
  /-- A lookup hands out what is held under the key. -/
  lookup : ∀ key, (b.cache.get? b.refs key).map (·.1) = m.held.lookup key
  closed : b.cache.isClosed = m.closed
  entries : b.cache.entries = m.held.entries.card
  size : b.cache.size = m.footprint % UInt64.size
  /-- What may not be measured is refused, and nothing is changed. -/
  refused : ∀ key, ∀ r ∈ b.held, ∀ purpose : SizePurpose, ¬ purpose.Admits r.entry →
    use? (.put key r purpose) b =
      some { b with answers := b.answers ++ [.refused (.stateData purpose r.entry.key)] }

theorem Follows.shows (h : b.Follows uses) : b.Shows (uses.foldl Map.after {}) := by
  rw [← h.toMap]
  refine ⟨fun key => ?_, rfl, (card_toMap h.counted.keys).symm, ?_,
    fun key r hr purpose hadmits => ?_⟩
  · rw [h.balanced.fst_get?, lookup_toMap]
  · rw [footprint_toMap h.counted.keys, h.counted.size]
  · rw [use?, if_pos (show Use.Of (.put key r purpose) b.held from hr),
      apply_put_of_not_admits hadmits]
    rfl

/-- Whatever a new cache is used for, it is the finite map that the uses make of an empty one, and
answers like it. Once closed it is empty for good, and its total is the sum of the sizes of what it
holds, which is nothing after the cache was emptied. -/
theorem run_refines (hrefs : refs.Balances held) (hrun : Run ⟨{}, refs, held, []⟩ uses b) :
    b.answers = Map.answers {} uses ∧ b.Shows (uses.foldl Map.after {}) ∧
      (b.cache.isClosed = true ↔ .close ∈ uses) ∧
      (.close ∈ uses → uses.foldl Map.after {} = ⟨∅, true⟩) ∧
      ((uses.foldl Map.after {}).footprint < UInt64.size →
        b.cache.size = (uses.foldl Map.after {}).footprint) ∧
      (uses.getLast? = some .evict ∨ .close ∈ uses → b.cache.size = 0) := by
  have hfollows := follows_of_run hrefs hrun
  have hshows := hfollows.shows
  have hempty (h : (uses.foldl Map.after {}).held = ∅) : b.cache.size = 0 := by
    rw [hshows.size, Map.footprint, h]
    rfl
  refine ⟨hfollows.answers, hshows, ?_, (Map.foldl_after_of_close · {}), fun hfits => ?_, ?_⟩
  · rw [hshows.closed]
    by_cases hclose : .close ∈ uses
    · simp [Map.foldl_after_of_close hclose, hclose]
    · simp [Map.closed_foldl_after hclose, hclose]
  · rw [hshows.size, Nat.mod_eq_of_lt hfits]
  · rintro (hlast | hclose)
    · obtain ⟨before, rfl⟩ := List.getLast?_eq_some_iff.mp hlast
      exact hempty (by rw [List.foldl_concat]; rfl)
    · exact hempty (by rw [Map.foldl_after_of_close hclose])

/-- An entry is put in, put in again under the same key in place of another one, and looked up;
what may not be measured is refused, and at last the cache is closed. -/
theorem four_uses_refine : ∃ b, Run ⟨{}, ⟨#[1, 1]⟩, [⟨1, .sample 6⟩, ⟨0, .sample 5⟩], []⟩
    [.put ⟨1, 5⟩ ⟨0, .sample 5⟩ .wholeAppend, .put ⟨1, 5⟩ ⟨1, .sample 6⟩ .wholeAppend,
      .get ⟨1, 5⟩, .put ⟨1, 6⟩ ⟨0, .sample 5⟩ .load] b ∧
    b.answers = [.done, .done, .found (some ⟨1, .sample 6⟩), .refused (.stateData .load ⟨1, 5⟩)] ∧
    b.cache.size = (LogEntry.sample 6).footprint ∧ b.cache.isClosed = false := by
  have hrefs : RefCounts.Balances ⟨#[1, 1]⟩ [⟨1, .sample 6⟩, ⟨0, .sample 5⟩] :=
    (RefCounts.balances_empty.wrap (.sample 5)).wrap (.sample 6)
  obtain ⟨b, hrun⟩ : ∃ b, Run ⟨{}, ⟨#[1, 1]⟩, [⟨1, .sample 6⟩, ⟨0, .sample 5⟩], []⟩
      [.put ⟨1, 5⟩ ⟨0, .sample 5⟩ .wholeAppend, .put ⟨1, 5⟩ ⟨1, .sample 6⟩ .wholeAppend,
        .get ⟨1, 5⟩, .put ⟨1, 6⟩ ⟨0, .sample 5⟩ .load] b :=
    ⟨_, .act (.act (.act (.act .nil rfl) rfl) rfl) rfl⟩
  obtain ⟨hanswers, -, hclosed, -, hsize, -⟩ := run_refines hrefs hrun
  refine ⟨b, hrun, hanswers, hsize (by decide), ?_⟩
  rw [← Bool.not_eq_true, hclosed]
  simp

end Bench

end Cache

end SegmentedLog
