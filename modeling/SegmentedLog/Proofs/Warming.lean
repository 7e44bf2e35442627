import SegmentedLog.Proofs.Custody
import SegmentedLog.Proofs.Ranges
import SegmentedLog.Proofs.SegmentRuns

/-! # One scan warms a segment

A scan for one entry caches every entry of the segment, in place of what was cached before. So of
any number of loads at most one scans the file: the first one that misses. From then on each entry
is handed out as the one sharing that the scan made of it.
-/

namespace SegmentedLog

open Stepwise

namespace Cache

variable {c c' : Cache}

def Keyed (c : Cache) : Prop := ∀ key r, (c.find? key).map (·.ref) = some r → r.entry.key = key

theorem Shows.keyed {entries : List LogEntry} (h : c.Shows entries) : c.Keyed := by
  intro key r hfound
  obtain ⟨e, -, hkey, hread⟩ := h.recalls key r hfound
  exact hread.key.trans hkey

theorem keyed_invariant : Invariant fun c _ => c.Keyed := by
  refine ⟨fun _ hc hput => ?_, fun removed hc => ?_, fun _ => ?_, fun _ => ?_⟩
  · rcases put_eq_ok.mp hput with ⟨-, ⟨-, rfl, -⟩ | ⟨retained, -, -, rfl, -⟩⟩
    · exact hc
    · intro key r hfound
      rw [find?_placed] at hfound
      split at hfound
      · next hkey =>
        cases hfound
        exact hkey.symm
      · exact hc key r hfound
  · intro key r hfound
    rw [find?_remove] at hfound
    split at hfound
    · cases hfound
    · exact hc key r hfound
  · intro key r hfound
    rw [find?_evict] at hfound
    cases hfound
  · intro key r hfound
    rw [find?_close] at hfound
    cases hfound

theorem closed_invariant : Invariant fun c _ => c.isClosed = true := by
  refine ⟨fun _ hc hput => ?_, fun key hc => isClosed_remove.trans hc, fun hc => ?_, fun _ => ?_⟩
  · rcases put_eq_ok.mp hput with ⟨-, ⟨-, rfl, -⟩ | ⟨retained, hopen, -, -⟩⟩
    · exact hc
    · cases hopen.symm.trans hc
  · exact isClosed_evict.trans hc
  · exact isClosed_close

end Cache

namespace Loader

variable {s : Loading} {key : TermIndex} {found : Option EntryRef} {entries : List LogEntry}
  {e : LogEntry}

/-! ## What a scan leaves in the cache -/

theorem receive_caches (hopen : s.cache.isClosed = false) (hplain : e.hasStateData = false)
    (key : TermIndex) (found : Option EntryRef) : ∃ r cache refs,
      receive key found e s = .ok (if e.key = key then some r else found) { s with cache, refs } ∧
        cache.isClosed = false ∧ ∀ other, (cache.find? other).map (·.ref) =
          if other = e.key then some r else (s.cache.find? other).map (·.ref) := by
  obtain ⟨cache, placed, refs, hput, hreceive⟩ := exists_receive s key found hplain
  obtain ⟨retained, hretain⟩ := s.refs.retain?_wrap e
  exact ⟨_, cache, refs, hreceive, Cache.find?_put hopen hretain hput⟩

/-- Each entry that was read is cached, and of those under the wanted key the one that is cached is
handed on. -/
theorem foldlM_receive_caches (hopen : s.cache.isClosed = false)
    (hplain : ∀ e ∈ entries, e.hasStateData = false) (key : TermIndex) (found : Option EntryRef) :
    ∃ found' cache refs, entries.foldlM (receive key) found s = .ok found' { s with cache, refs } ∧
      cache.isClosed = false ∧ (∀ e ∈ entries, (cache.find? e.key).isSome) ∧
      (∀ other, (∀ e ∈ entries, e.key ≠ other) →
        (cache.find? other).map (·.ref) = (s.cache.find? other).map (·.ref)) ∧
      found' = if ∃ e ∈ entries, e.key = key then (cache.find? key).map (·.ref) else found := by
  induction entries generalizing s found with
  | nil => exact ⟨found, s.cache, s.refs, rfl, hopen, nofun, fun _ _ => rfl, by simp⟩
  | cons e entries ih =>
    obtain ⟨hfirst, hrest⟩ := List.forall_mem_cons.mp hplain
    obtain ⟨r, cache, refs, hreceive, hopen', hfind⟩ := receive_caches hopen hfirst key found
    obtain ⟨found', cache', refs', hfold, hopen'', hcached, hother, hfound⟩ :=
      ih (s := { s with cache, refs }) hopen' hrest (if e.key = key then some r else found)
    refine ⟨found', cache', refs', ?_, hopen'', ?_, fun other hne => ?_, ?_⟩
    · rw [List.foldlM_cons, bind_of_ok hreceive, hfold]
    · refine List.forall_mem_cons.mpr ⟨?_, hcached⟩
      by_cases hagain : ∃ e' ∈ entries, e'.key = e.key
      · obtain ⟨e', he', hkey⟩ := hagain
        exact hkey ▸ hcached e' he'
      · have hlast := hother e.key (by simpa using hagain)
        rw [hfind, if_pos rfl] at hlast
        simpa using congrArg Option.isSome hlast
    · obtain ⟨hne, hnes⟩ := List.forall_mem_cons.mp hne
      rw [hother other hnes, hfind, if_neg (Ne.symm hne)]
    · rw [hfound]
      by_cases hagain : ∃ e' ∈ entries, e'.key = key
      · obtain ⟨e', he', hkey⟩ := hagain
        rw [if_pos ⟨e', he', hkey⟩, if_pos ⟨e', List.mem_cons_of_mem _ he', hkey⟩]
      · rw [if_neg hagain]
        by_cases hkey : e.key = key
        · rw [if_pos hkey, if_pos ⟨e, List.mem_cons_self .., hkey⟩,
            hother key (by simpa using hagain), hfind, if_pos hkey.symm]
        · rw [if_neg hkey, if_neg]
          simpa [hkey] using hagain

end Loader

namespace Session

variable {s t : Session} {key : TermIndex} {pool : List LogEntry} {r : EntryRef}

/-! ## One load -/

structure Tally where
  loadingTimes : Nat
  segmentLoads : Nat
  entriesRead : Nat

def tally (s : Session) : Tally :=
  ⟨s.segment.loader.loadingTimes, s.metrics.segmentLoads, s.metrics.entriesRead⟩

def Tally.scanned (tally : Tally) (count : Nat) : Tally :=
  ⟨tally.loadingTimes + 1, tally.segmentLoads + 1, tally.entriesRead + count⟩

/-- Whether loads find some entries of a segment: its cache is open and holds entries under their
own keys, the counts agree with what is held, and a scan of the file hands over these entries. -/
structure Warms (s : Session) (pool : List LogEntry) : Prop where
  contains : ∀ e ∈ pool, s.segment.Contains e.index
  scan : pool ≠ [] →
    s.disk.scan s.segment.file s.segment.range s.segment.context.maxEntrySize =
      ⟨pool.map (·.stripped), none⟩
  isOpen : s.segment.cache.isClosed = false
  keyed : s.segment.cache.Keyed
  balanced : ∃ others, s.Balanced others

theorem Warms.of_lasting (h : s.Warms pool) (hlasting : t.lasting = s.lasting)
    (hopen : t.segment.cache.isClosed = false) (hkeyed : t.segment.cache.Keyed)
    (hbalanced : ∃ others, t.Balanced others) : t.Warms pool := by
  obtain ⟨hbooks, hrest⟩ := Prod.ext_iff.mp hlasting
  obtain ⟨hcontext, hdisk⟩ := Prod.ext_iff.mp hrest
  change t.segment.context = s.segment.context at hcontext
  change t.disk = s.disk at hdisk
  refine ⟨fun e he => ?_, fun hne => ?_, hopen, hkeyed, hbalanced⟩
  · obtain ⟨-, hnext, -, hindex⟩ := Segment.Books.mk.inj hbooks
    have hstart : t.segment.start = s.segment.start := congrArg SegmentIndex.start hindex
    rw [Segment.Contains, hstart, hnext]
    exact h.contains e he
  · rw [Segment.file, hdisk, Segment.range_of_books hbooks, hcontext]
    exact h.scan hne

theorem Warms.load_of_hit (h : s.Warms pool)
    (hfound : (s.segment.cache.find? key).map (·.ref) = some r) :
    ∃ refs, load key s = .ok r { s with refs } := by
  obtain ⟨others, hbalanced⟩ := h.balanced
  have hget := Cache.Balanced.fst_get? hbalanced key
  rw [hfound] at hget
  obtain ⟨⟨_, refs⟩, hhit, rfl⟩ := Option.map_eq_some_iff.mp hget
  exact ⟨refs, load_of_cached (cached?_of_hit hhit)⟩

/-- A load that misses scans the file, and what it hands out is what is cached then. -/
theorem Warms.load_of_miss (h : s.Warms pool) (hkey : key ∈ pool.map (·.key))
    (hmiss : s.segment.cache.find? key = none) : ∃ r t, load key s = .ok r t ∧
      t.segment.cache.isClosed = false ∧ t.tally = s.tally.scanned pool.length ∧
      (∀ e ∈ pool, (t.segment.cache.find? e.key).isSome) ∧
      (t.segment.cache.find? key).map (·.ref) = some r := by
  have hcached : cached? key s = .ok none s := cached?_of_miss (by rw [Cache.get?, hmiss]; rfl)
  obtain ⟨e, he, rfl⟩ := List.mem_map.mp hkey
  have hplain : ∀ e ∈ pool.map (·.stripped), e.hasStateData = false := by
    intro e he
    obtain ⟨e, -, rfl⟩ := List.mem_map.mp he
    rfl
  obtain ⟨found, cache, refs, hfold, hopen, hall, -, hfound⟩ := Loader.foldlM_receive_caches
    (s := { s with loader := s.segment.loader, cache := s.segment.cache }) h.isOpen hplain e.key
    none
  rw [if_pos ⟨e.stripped, List.mem_map_of_mem he, rfl⟩] at hfound
  have hall' : ∀ e ∈ pool, (cache.find? e.key).isSome := fun e he =>
    hall e.stripped (List.mem_map_of_mem he)
  obtain ⟨slot, hslot⟩ := Option.isSome_iff_exists.mp (hall' e he)
  rw [hfound, hslot, Option.map_some] at hfold
  have hload := Loader.load_of_run
    (s := { s with loader := s.segment.loader, cache := s.segment.cache }) rfl
    (h.scan (List.ne_nil_of_mem he)) hfold
  rw [List.length_map] at hload
  have hheld : (cache.find? e.key).map (·.ref) = some slot.ref := by rw [hslot]; rfl
  have hresult := (Session.load_of_miss hcached (h.contains e he)).trans
    (explain_of_ok (onLoader_of_ok hload))
  exact ⟨slot.ref, _, hresult, hopen, rfl, hall', hheld⟩

/-- A load of an entry succeeds. If the entry is cached nothing changes; otherwise all are cached
by one scan. -/
theorem Warms.load (h : s.Warms pool) (hkey : key ∈ pool.map (·.key)) : ∃ r t,
    load key s = .ok r t ∧ t.Warms pool ∧ r.entry.key = key ∧
      (t.segment.cache.find? key).map (·.ref) = some r ∧
      ((s.segment.cache.find? key).isSome →
        t.segment.cache = s.segment.cache ∧ t.tally = s.tally) ∧
      (s.segment.cache.find? key = none → t.tally = s.tally.scanned pool.length ∧
        ∀ e ∈ pool, (t.segment.cache.find? e.key).isSome) := by
  obtain ⟨others, hbalanced⟩ := h.balanced
  have hkept {r : EntryRef} {t : Session} (hload : Session.load key s = .ok r t)
      (hopen : t.segment.cache.isClosed = false) : t.Warms pool :=
    h.of_lasting ((load_within key).of_ok hload) hopen
      ((leaves_load Cache.keyed_invariant.loads key h.keyed).of_ok hload)
      ⟨_, (ends_load key hbalanced).ok hload⟩
  cases hfound : s.segment.cache.find? key with
  | some slot =>
    have hheld : (s.segment.cache.find? key).map (·.ref) = some slot.ref := by rw [hfound]; rfl
    obtain ⟨refs, hload⟩ := h.load_of_hit hheld
    exact ⟨slot.ref, _, hload, hkept hload h.isOpen, h.keyed key _ hheld, hheld,
      fun _ => ⟨rfl, rfl⟩, nofun⟩
  | none =>
    obtain ⟨r, t, hload, hopen, htally, hall, hheld⟩ := h.load_of_miss hkey hfound
    have ht := hkept hload hopen
    exact ⟨r, t, hload, ht, ht.keyed key r hheld, hheld, nofun, fun _ => ⟨htally, hall⟩⟩

end Session

/-! ## Runs of loads -/

/-- A session that entries are loaded from, and what each load was answered with. -/
structure Loads where
  session : Session
  log : List (TermIndex × Option EntryRef) := []

namespace Loads

variable {s : Session} {d d' : Loads} {key : TermIndex} {keys : List TermIndex}
  {pool : List LogEntry}

def load (key : TermIndex) (d : Loads) : Loads :=
  match Session.load key d.session with
  | .ok r session => ⟨session, d.log ++ [(key, some r)]⟩
  | .error _ session => ⟨session, d.log ++ [(key, none)]⟩

/-- Whether nothing changed but the references held elsewhere, which are counted as before. -/
def Meanwhile (d d' : Loads) : Prop :=
  ∃ refs others, d' = { d with session := { d.session with refs } } ∧ d'.session.Balanced others

abbrev Run (d : Loads) (keys : List TermIndex) (d' : Loads) : Prop :=
  Stepwise.Run (fun key d => some (load key d)) Meanwhile d keys d'

/-- The answers from the first one on that was not cached in the beginning. -/
def fromMiss (s : Session) (d : Loads) : List (TermIndex × Option EntryRef) :=
  d.log.dropWhile fun answer => (s.segment.cache.find? answer.1).isSome

structure Follows (s : Session) (pool : List LogEntry) (keys : List TermIndex) (d : Loads) :
    Prop where
  warms : d.session.Warms pool
  asked : d.log.map (·.1) = keys
  answered : ∀ answer ∈ d.log, ∃ r, answer.2 = some r ∧ r.entry.key = answer.1
  quiet : (∀ key ∈ keys, (s.segment.cache.find? key).isSome) →
    d.session.segment.cache = s.segment.cache ∧ d.session.tally = s.tally
  scanned : (∃ key ∈ keys, s.segment.cache.find? key = none) →
    d.session.tally = s.tally.scanned pool.length ∧
    (∀ e ∈ pool, (d.session.segment.cache.find? e.key).isSome) ∧
    ∀ answer ∈ d.fromMiss s, answer.2 = (d.session.segment.cache.find? answer.1).map (·.ref)

theorem fromMiss_concat {answer : TermIndex × Option EntryRef} {t : Session}
    (h : ∃ key ∈ d.log.map (·.1), s.segment.cache.find? key = none) :
    fromMiss s ⟨t, d.log ++ [answer]⟩ = d.fromMiss s ++ [answer] := by
  have hsome : (d.fromMiss s).isEmpty = false := by
    rw [List.isEmpty_eq_false_iff, fromMiss, ne_eq, List.dropWhile_eq_nil_iff]
    intro hall
    obtain ⟨key, hkey, hmiss⟩ := h
    obtain ⟨answer, hanswer, rfl⟩ := List.mem_map.mp hkey
    have hcached := hall answer hanswer
    rw [hmiss] at hcached
    cases hcached
  change List.dropWhile _ (d.log ++ [answer]) = _
  rw [List.dropWhile_append]
  change (if (d.fromMiss s).isEmpty = true then _ else _) = _
  rw [hsome, if_neg Bool.false_ne_true]
  rfl

theorem fromMiss_first {answer : TermIndex × Option EntryRef} {t : Session}
    (h : ∀ key ∈ d.log.map (·.1), (s.segment.cache.find? key).isSome)
    (hmiss : s.segment.cache.find? answer.1 = none) :
    fromMiss s ⟨t, d.log ++ [answer]⟩ = [answer] := by
  change List.dropWhile _ (d.log ++ [answer]) = _
  rw [List.dropWhile_append_of_pos fun earlier hearlier =>
    h _ (List.mem_map_of_mem hearlier)]
  exact List.dropWhile_cons_of_neg (by simp [hmiss])

theorem follows_nil (h : s.Warms pool) : Follows s pool [] ⟨s, []⟩ := by
  refine ⟨h, rfl, nofun, fun _ => ⟨rfl, rfl⟩, ?_⟩
  rintro ⟨key, hkey, -⟩
  cases hkey

theorem Follows.load (h : Follows s pool keys d) (hkey : key ∈ pool.map (·.key)) :
    Follows s pool (keys ++ [key]) (load key d) := by
  obtain ⟨r, t, hload, ht, hentry, hheld, hhit, hmiss⟩ := h.warms.load hkey
  have hd : Loads.load key d = ⟨t, d.log ++ [(key, some r)]⟩ := by simp only [Loads.load, hload]
  rw [hd]
  refine ⟨ht, by rw [List.map_append, h.asked]; rfl, ?_, fun hall => ?_, fun hsome => ?_⟩
  · refine List.forall_mem_append.mpr ⟨h.answered, ?_⟩
    rintro answer hanswer
    cases List.mem_singleton.mp hanswer
    exact ⟨r, rfl, hentry⟩
  · obtain ⟨hbefore, hlast⟩ := List.forall_mem_append.mp hall
    obtain ⟨hcache, htally⟩ := h.quiet hbefore
    obtain ⟨hcache', htally'⟩ := hhit (hcache ▸ hlast key (List.mem_singleton_self key))
    exact ⟨hcache'.trans hcache, htally'.trans htally⟩
  · by_cases hbefore : ∃ key ∈ keys, s.segment.cache.find? key = none
    · obtain ⟨htally, hcached, hanswers⟩ := h.scanned hbefore
      obtain ⟨e, he, hekey⟩ := List.mem_map.mp hkey
      obtain ⟨hcache, htally'⟩ := hhit (hekey ▸ hcached e he)
      refine ⟨htally'.trans htally, hcache ▸ hcached, ?_⟩
      rw [fromMiss_concat (h.asked ▸ hbefore)]
      refine List.forall_mem_append.mpr ⟨hcache ▸ hanswers, fun answer hanswer => ?_⟩
      cases List.mem_singleton.mp hanswer
      exact hheld.symm
    · have hall : ∀ key ∈ keys, (s.segment.cache.find? key).isSome := fun key hkey =>
        Option.isSome_iff_ne_none.mpr fun hnone => hbefore ⟨key, hkey, hnone⟩
      obtain ⟨hcache, htally⟩ := h.quiet hall
      have hnone : s.segment.cache.find? key = none := by
        obtain ⟨key', hkey', hnone⟩ := hsome
        rcases List.mem_append.mp hkey' with hkey' | hkey'
        · exact absurd ⟨key', hkey', hnone⟩ hbefore
        · exact List.mem_singleton.mp hkey' ▸ hnone
      obtain ⟨htally', hcached⟩ := hmiss (hcache ▸ hnone)
      refine ⟨htally'.trans (by rw [htally]), hcached, ?_⟩
      rw [fromMiss_first (h.asked ▸ hall) hnone]
      intro answer hanswer
      cases List.mem_singleton.mp hanswer
      exact hheld.symm

theorem follows_of_run (h : s.Warms pool) (hrun : Run ⟨s, []⟩ keys d)
    (hkeys : ∀ key ∈ keys, key ∈ pool.map (·.key)) : Follows s pool keys d := by
  induction hrun with
  | nil => exact follows_nil h
  | act _ hload ih =>
    obtain ⟨hbefore, hlast⟩ := List.forall_mem_append.mp hkeys
    cases hload
    exact (ih hbefore).load (hlast _ (List.mem_singleton_self _))
  | env _ hmeanwhile ih =>
    obtain ⟨refs, others, rfl, hbalanced⟩ := hmeanwhile
    have hbefore := ih hkeys
    have hwarms := hbefore.warms
    exact ⟨hwarms.of_lasting rfl hwarms.isOpen hwarms.keyed ⟨others, hbalanced⟩, hbefore.asked,
      hbefore.answered, hbefore.quiet, hbefore.scanned⟩

end Loads

/-! ## Segments whose file holds their entries -/

namespace Client

variable {c c' : Client} {call : Call} {calls : List Call}

theorem isClosed_of_clear (hrun : c.Run calls c') (hclear : Call.clear ∈ calls) :
    c'.segment.cache.isClosed = true := by
  induction hrun with
  | nil => cases hclear
  | act _ hcall ih =>
    rcases List.mem_append.mp hclear with hclear | hclear
    · exact cacheHas_of_call Cache.closed_invariant (ih hclear) hcall
    · cases List.mem_singleton.mp hclear
      obtain ⟨s, hs, rfl⟩ := make?_of_no_sink rfl hcall
      cases hs
      exact Cache.isClosed_close
  | env _ hmeanwhile ih =>
    obtain ⟨disk, refs, metrics, rfl⟩ := hmeanwhile
    exact ih hclear

end Client

theorem Segment.Origin.keyed {seg : Segment} (h : seg.Origin) : seg.cache.Keyed := by
  cases h with
  | opening context start => exact nofun
  | loaded hload =>
    obtain ⟨entries, hyielded⟩ := Host.loadSegment_eq_some hload
    exact hyielded.cache.keyed

namespace Session

variable {s : Session} {entries written : List LogEntry} {id : FileId} {z : Nat}
  {others : List EntryRef}

theorem map_key_take {records : List LogRecord}
    (hframes : records.map (·.key) <+: written.map (·.key)) :
    (written.take records.length).map (·.key) = records.map (·.key) := by
  have htake := List.prefix_iff_eq_take.mp hframes
  rw [List.length_map] at htake
  rw [List.map_take, ← htake]

/-- A file that starts with a frame for each entry of a segment, and holds no more of them if the
segment is open, warms the segment. -/
theorem warms_of_image (hspans : s.segment.Spans headerSize entries)
    (husable : s.segment.cache.isClosed = false) (hkeyed : s.segment.cache.Keyed)
    (hbalanced : s.Balanced others) (hfile : s.disk.HasFile s.segment.file id)
    (hcontent : s.disk.content id = fileImage written ++ List.replicate z 0)
    (hframes : s.segment.records.map (·.key) <+: written.map (·.key))
    (hwhole : s.segment.isOpen = true → written.length = s.segment.records.length)
    (hindices : Consecutive s.segment.start.toNat (written.map (·.index)))
    (hlimit : ∀ e ∈ written, e.stripped.encodedSize ≤ s.segment.context.maxEntrySize)
    (hfits : (fileImage written).length < Disk.lengthLimit) :
    s.Warms (written.take s.segment.records.length) := by
  have hlength := hspans.length_records
  have hkeys := map_key_take hframes
  refine ⟨fun e he => ?_, fun hne => ?_, husable, hkeyed, ⟨others, hbalanced⟩⟩
  · have hmem : e.key ∈ s.segment.records.map (·.key) := hkeys ▸ List.mem_map_of_mem he
    rw [hspans.records, LogRecord.map_key_layout] at hmem
    obtain ⟨e', he', hkey⟩ := List.mem_map.mp hmem
    rw [hspans.contains_iff, show e.index = e'.index from congrArg TermIndex.index hkey.symm]
    exact List.mem_map_of_mem he'
  · have hentries : entries ≠ [] := by
      rintro rfl
      rw [hlength] at hne
      exact hne rfl
    have hcount : entries.length ≤ written.length := by
      have hle := hframes.length_le
      rw [List.length_map, List.length_map] at hle
      exact hlength ▸ hle
    rw [← s.segment.start_range] at hindices
    rw [Disk.scan_image hfile hcontent (hspans.holds.proper_range hentries)
      (Host.takes_of_fits hlimit hfits) hindices,
      hspans.holds.admitted_range hentries hcount fun hopen => (hwhole hopen).trans hlength,
      hlength]

end Session

namespace Loads

variable {c c' : Client} {calls : List Call} {d : Loads} {keys : List TermIndex}
  {others : List EntryRef} {written : List LogEntry} {id : FileId} {z : Nat}

/-- Whatever is cached for a segment whose file holds its entries, any loads of these succeed, at
most one of them scans the file, and does so only if something is missing. From then on all entries
are cached, and each is handed out as the same sharing every time. -/
theorem run_scans_once (horigin : c.segment.Origin) (hrun : c.Run calls c')
    (husable : c'.segment.cache.isClosed = false) (hbalanced : c'.session.Balanced others)
    (hfile : c'.session.disk.HasFile c'.segment.file id)
    (hcontent : c'.session.disk.content id = fileImage written ++ List.replicate z 0)
    (hframes : c'.segment.records.map (·.key) <+: written.map (·.key))
    (hwhole : c'.segment.isOpen = true → written.length = c'.segment.records.length)
    (hindices : Consecutive c'.segment.start.toNat (written.map (·.index)))
    (hlimit : ∀ e ∈ written, e.stripped.encodedSize ≤ c'.segment.context.maxEntrySize)
    (hfits : (fileImage written).length < Disk.lengthLimit)
    (hloads : Run ⟨c'.session, []⟩ keys d)
    (hkeys : ∀ key ∈ keys, key ∈ c'.segment.records.map (·.key)) :
    d.log.map (·.1) = keys ∧
    (∀ answer ∈ d.log, ∃ r, answer.2 = some r ∧ r.entry.key = answer.1) ∧
    d.session.tally = (if ∃ key ∈ keys, c'.segment.cache.find? key = none then
      c'.session.tally.scanned c'.segment.records.length else c'.session.tally) ∧
    ((∃ key ∈ keys, c'.segment.cache.find? key = none) →
      ∀ record ∈ c'.segment.records, (d.session.segment.cache.find? record.key).isSome) ∧
    ∀ first ∈ d.fromMiss c'.session, ∀ second ∈ d.fromMiss c'.session,
      first.1 = second.1 → first.2 = second.2 := by
  have hclear : Call.clear ∉ calls := fun hclear => by
    have hclosed := Client.isClosed_of_clear hrun hclear
    rw [husable] at hclosed
    cases hclosed
  obtain ⟨entries₀, hspans₀⟩ := horigin.spans
  obtain ⟨base, entries, hspans, hbase⟩ := (Client.kept_of_run hspans₀ hrun).spans
  obtain rfl := hbase hclear
  have hkeyed := Client.cacheHas_of_run Cache.keyed_invariant horigin.keyed hrun
  have hwarms := Session.warms_of_image hspans husable hkeyed hbalanced hfile hcontent hframes
    hwhole hindices hlimit hfits
  have hpool := Session.map_key_take hframes
  have hcount : (written.take c'.segment.records.length).length = c'.segment.records.length := by
    rw [← List.length_map (f := (·.key)), hpool, List.length_map]
  have hfollows : Follows c'.session (written.take c'.segment.records.length) keys d :=
    follows_of_run hwarms hloads (hpool ▸ hkeys)
  have hquiet (hnone : ¬ ∃ key ∈ keys, c'.segment.cache.find? key = none) :
      ∀ key ∈ keys, (c'.segment.cache.find? key).isSome := fun key hkey =>
    Option.isSome_iff_ne_none.mpr fun heq => hnone ⟨key, hkey, heq⟩
  refine ⟨hfollows.asked, hfollows.answered, ?_, fun hsome record hrecord => ?_,
    fun first hfirst second hsecond hsame => ?_⟩
  · split
    · next hsome => rw [(hfollows.scanned hsome).1, hcount]
    · next hnone => exact (hfollows.quiet (hquiet hnone)).2
  · have hkey : record.key ∈ (written.take c'.segment.records.length).map (·.key) :=
      hpool ▸ List.mem_map_of_mem hrecord
    obtain ⟨e, he, heq⟩ := List.mem_map.mp hkey
    exact heq ▸ (hfollows.scanned hsome).2.1 e he
  · by_cases hsome : ∃ key ∈ keys, c'.segment.cache.find? key = none
    · have hanswers := (hfollows.scanned hsome).2.2
      rw [hanswers first hfirst, hanswers second hsecond, hsame]
    · have hnil : d.fromMiss c'.session = [] := List.dropWhile_eq_nil_iff.mpr fun answer hanswer =>
        hquiet hsome _ (hfollows.asked ▸ List.mem_map_of_mem hanswer)
      rw [hnil] at hfirst
      cases hfirst

def sampleClient : Client where
  session :=
    { disk := (({} : Disk).create ⟨.root, (SegmentRange.opening 5).name⟩).2.setContent ⟨0⟩
        (fileImage [.sample 5, .sample 6] ++ List.replicate 2 0)
      refs := ⟨#[1, 1]⟩
      segment := .opening ⟨".", .strict, 64⟩ 5 }
  sinks _ := .absent

def sampleAppends : List Call :=
  [.append .wholeAppend ⟨0, .sample 5⟩ none, .evict, .append .wholeAppend ⟨1, .sample 6⟩ none]

theorem sampleClient_scans_once : ∃ c' d, sampleClient.Run sampleAppends c' ∧
    Run ⟨c'.session, []⟩ [⟨1, 6⟩, ⟨1, 5⟩, ⟨1, 6⟩] d ∧ d.session.tally = ⟨1, 1, 2⟩ := by
  obtain ⟨c', hrun, hslots, husable, hrefs, hfile, hdisk, hkeys, hwhole, hstart, hsize, htally⟩ :
      ∃ c', sampleClient.Run sampleAppends c' ∧
        c'.segment.cache.slots = [⟨⟨1, 6⟩, ⟨1, .sample 6⟩, (LogEntry.sample 6).footprint⟩] ∧
        c'.segment.cache.isClosed = false ∧ c'.session.refs = ⟨#[1, 2]⟩ ∧
        c'.session.disk.HasFile c'.segment.file ⟨0⟩ ∧
        c'.session.disk.content ⟨0⟩ =
          fileImage [.sample 5, .sample 6] ++ List.replicate 2 0 ∧
        c'.segment.records.map (·.key) = [⟨1, 5⟩, ⟨1, 6⟩] ∧ c'.segment.records.length = 2 ∧
        c'.segment.start = 5 ∧ c'.segment.context.maxEntrySize = 64 ∧
        c'.session.tally = ⟨0, 0, 0⟩ :=
    ⟨_, .act (.act (.act .nil rfl) rfl) rfl, rfl, rfl, rfl, ⟨rfl, by decide⟩, rfl, rfl, rfl, rfl,
      rfl, rfl⟩
  have hcached (key : TermIndex) (hkey : key ≠ ⟨1, 6⟩) : c'.segment.cache.find? key = none := by
    rw [Cache.find?, hslots]
    simp [Ne.symm hkey]
  have hbalanced : c'.session.Balanced [⟨1, .sample 6⟩, ⟨0, .sample 5⟩] := by
    refine ⟨?_, ?_⟩
    · rw [show c'.session.segment.cache.slots = _ from hslots]
      decide
    · rw [hrefs, Cache.refsHeld, show c'.session.segment.cache.slots = _ from hslots]
      exact ((RefCounts.balances_empty.wrap (.sample 5)).wrap (.sample 6)).of_retain?
        (r := ⟨1, .sample 6⟩) rfl
  obtain ⟨d, hloads⟩ : ∃ d, Run ⟨c'.session, []⟩ [⟨1, 6⟩, ⟨1, 5⟩, ⟨1, 6⟩] d :=
    ⟨_, .act (.act (.act .nil rfl) rfl) rfl⟩
  have hfits : (fileImage [.sample 5, .sample 6]).length < Disk.lengthLimit := by
    rw [length_fileImage]
    decide
  have horigin : sampleClient.segment.Origin := .opening _ _
  obtain ⟨-, -, hscans, -⟩ := run_scans_once horigin hrun husable hbalanced hfile hdisk
    (by rw [hkeys]; exact List.prefix_refl _) (fun _ => hwhole.symm) (by rw [hstart]; decide)
    (by rw [hsize]; decide) hfits hloads (by rw [hkeys]; decide)
  rw [if_pos ⟨⟨1, 5⟩, by simp, hcached _ (by decide)⟩, htally, hwhole] at hscans
  exact ⟨c', d, hrun, hloads, hscans⟩

end Loads

end SegmentedLog
