import SegmentedLog.Proofs.PartialScans
import SegmentedLog.Proofs.Paths
import SegmentedLog.Proofs.Rereading
import SegmentedLog.Proofs.Warming

/-! # Loading again after a reconstruction

What a load from an empty cache comes to is told by a scan of the file under the segment's own name.
For a segment that was just reconstructed this need not be the file it was read from; and where it
is, the reconstruction may have cut off the end of what was read.
-/

namespace SegmentedLog

open Stepwise

/-- Whether a scan serves a miss: the policy accepts how it ended, all entries may be cached, and
the wanted one is among them. -/
def Scan.Serves (scan : Scan) (policy : CorruptionPolicy) (key : TermIndex) : Prop :=
  (∃ count, scan.settle policy = .ok count) ∧ (∀ e ∈ scan.entries, e.hasStateData = false) ∧
    ∃ e ∈ scan.entries, e.key = key

theorem Consecutive.nodup_keys {start : Nat} {entries : List LogEntry}
    (h : Consecutive start (entries.map (·.index))) : (entries.map (·.key)).Nodup := by
  refine List.Nodup.of_map TermIndex.index ?_
  rw [List.map_map]
  exact h.nodup

/-- An entry under a key that is not held takes a place of its own. -/
theorem Cache.entries_put {c c' : Cache} {refs retained after : RefCounts} {key : TermIndex}
    {r : EntryRef} {purpose : SizePurpose} (hopen : c.isClosed = false)
    (hnew : c.find? key = none) (hretain : refs.retain? r = some retained)
    (hput : c.put refs key r purpose = .ok (c', after)) : c'.entries = c.entries + 1 := by
  rcases put_eq_ok.mp hput with ⟨-, ⟨hclosed | hgone, -, -⟩ | ⟨retained', -, hretain', rfl, -⟩⟩
  · rw [hopen] at hclosed
    cases hclosed
  · rw [hretain] at hgone
    cases hgone
  · change (c.remove retained' key).1.slots.length + 1 = c.slots.length + 1
    rw [remove, hnew]

theorem Cache.entries_evict {c : Cache} {refs : RefCounts} : (c.evict refs).1.entries = 0 := by
  rw [entries, slots_evict]
  rfl

namespace Loader

variable {s t : Loading} {key : TermIndex} {entries : List LogEntry}
  {found found' : Option EntryRef} {e : LogEntry} {range : SegmentRange} {r : EntryRef}
  {scan : Scan} {count : Nat}

/-! ## What a load comes to -/

theorem receive_eq_ok (h : receive key found e s = .ok found' t) : e.hasStateData = false ∧
    found'.map (·.entry) = (if e.key = key then some e else found.map (·.entry)) ∧
    ∃ cache placed refs, s.cache.put (s.refs.wrap e).2 e.key (s.refs.wrap e).1 .load =
      .ok (cache, placed) ∧ t = { s with cache, refs } := by
  have hplain : e.hasStateData = false := by
    by_contra hdata
    have hrefused : s.cache.put (s.refs.wrap e).2 e.key (s.refs.wrap e).1 .load =
        .error (.stateData .load e.key) := Cache.put_of_not_admits fun hadmits => by
      rcases hadmits with hload | hplain
      · cases hload
      · exact hdata hplain
    rw [receive, get_bind] at h
    dsimp only at h
    rw [hrefused] at h
    cases h
  obtain ⟨cache, placed, refs, hput, hreceive⟩ := exists_receive s key found hplain
  cases h.symm.trans hreceive
  refine ⟨hplain, ?_, cache, placed, refs, hput, rfl⟩
  split <;> rfl

/-- Only entries that may be cached are received, and of those under the wanted key the last one is
handed on. Nothing but the cache and the counts is changed. -/
theorem foldlM_receive_eq_ok (h : entries.foldlM (receive key) found s = .ok found' t) :
    (∀ e ∈ entries, e.hasStateData = false) ∧ found'.map (·.entry) =
      (entries.reverse.find? (·.key = key)).or (found.map (·.entry)) ∧
    ∃ cache refs, t = { s with cache, refs } := by
  induction entries generalizing found s with
  | nil =>
    obtain ⟨rfl, rfl⟩ := pure_eq_ok.mp h
    exact ⟨nofun, rfl, s.cache, s.refs, rfl⟩
  | cons e entries ih =>
    rw [List.foldlM_cons] at h
    obtain ⟨next, u, hreceive, hrest⟩ := bind_eq_ok.mp h
    obtain ⟨hplain, hnext, cache, -, refs, -, rfl⟩ := receive_eq_ok hreceive
    obtain ⟨hplains, hfound, cache', refs', rfl⟩ := ih hrest
    refine ⟨List.forall_mem_cons.mpr ⟨hplain, hplains⟩, ?_, cache', refs', rfl⟩
    rw [hfound, hnext, List.reverse_cons, List.find?_append]
    by_cases hkey : e.key = key
    · simp [hkey]
    · simp [hkey]

/-- Entries of different keys that were not cached are all held besides what was. -/
theorem entries_of_foldlM_receive (hopen : s.cache.isClosed = false)
    (hkeys : (entries.map (·.key)).Nodup) (hnew : ∀ e ∈ entries, s.cache.find? e.key = none)
    (h : entries.foldlM (receive key) found s = .ok found' t) :
    t.cache.entries = s.cache.entries + entries.length := by
  induction entries generalizing found s with
  | nil =>
    obtain ⟨-, rfl⟩ := pure_eq_ok.mp h
    rfl
  | cons e entries ih =>
    rw [List.foldlM_cons] at h
    obtain ⟨next, u, hreceive, hrest⟩ := bind_eq_ok.mp h
    obtain ⟨-, -, cache, placed, refs, hput, rfl⟩ := receive_eq_ok hreceive
    obtain ⟨hother, hkeys⟩ := List.nodup_cons.mp hkeys
    obtain ⟨hfirst, hnew⟩ := List.forall_mem_cons.mp hnew
    obtain ⟨retained, hretain⟩ := s.refs.retain?_wrap e
    obtain ⟨hopen', hfind⟩ := Cache.find?_put hopen hretain hput
    have hcount := Cache.entries_put hopen hfirst hretain hput
    rw [ih hopen' hkeys (fun e' he' => ?_) hrest, hcount, List.length_cons, Nat.add_right_comm,
      Nat.add_assoc]
    have hne : e'.key ≠ e.key := fun hkey =>
      hother (List.mem_map.mpr ⟨e', he', hkey⟩)
    have hheld := hfind e'.key
    rw [if_neg hne, hnew e' he'] at hheld
    exact Option.map_eq_none_iff.mp hheld

/-- Where the policy accepts how the scan ended, what was found is handed out. -/
theorem load_of_settled
    (hscan : s.disk.scan (s.loader.context.file range) range s.loader.context.maxEntrySize = scan)
    (hfold : scan.entries.foldlM (receive key) none s = .ok found t)
    (hsettle : scan.settle s.loader.context.policy = .ok count) :
    (∀ r, found = some r → load key range s = .ok r (counted scan.entries.length t)) ∧
    (found = none → load key range s =
      .error (.error (.entryNotFound key (s.loader.context.file range) count))
        (counted scan.entries.length t)) := by
  rw [load, get_bind]
  dsimp only
  rw [hscan, bind_of_ok hfold, hsettle]
  rcases hfailure : scan.failure with _ | cause | fault
  · exact ⟨by rintro r rfl; rfl, by rintro rfl; rfl⟩
  · exact ⟨by rintro r rfl; rfl, by rintro rfl; rfl⟩
  · rw [Scan.settle_of_fault hfailure] at hsettle
    cases hsettle

theorem load_of_unsettled {cause : Failure}
    (hscan : s.disk.scan (s.loader.context.file range) range s.loader.context.maxEntrySize = scan)
    (hfold : scan.entries.foldlM (receive key) none s = .ok found t)
    (hsettle : scan.settle s.loader.context.policy = .error cause) :
    ∃ u, load key range s = .error cause u := by
  have hfailure := Host.settle_eq_error hsettle
  rw [load, get_bind]
  dsimp only
  rw [hscan, bind_of_ok hfold, hsettle, hfailure]
  cases cause with
  | fault cause => exact ⟨_, rfl⟩
  | error cause => exact ⟨_, rfl⟩

theorem load_eq_ok
    (hscan : s.disk.scan (s.loader.context.file range) range s.loader.context.maxEntrySize = scan)
    (h : load key range s = .ok r t) : scan.Serves s.loader.context.policy key ∧
      r.entry ∈ scan.entries ∧ r.entry.key = key ∧
      ∃ found u, scan.entries.foldlM (receive key) none s = .ok found u ∧
        t = counted scan.entries.length u := by
  have hload := h
  rw [load, get_bind] at hload
  dsimp only at hload
  rw [hscan] at hload
  obtain ⟨found, u, hfold, -⟩ := bind_eq_ok.mp hload
  obtain ⟨hplain, hfound, -⟩ := foldlM_receive_eq_ok hfold
  cases hsettle : scan.settle s.loader.context.policy with
  | error cause =>
    obtain ⟨v, hfailed⟩ := load_of_unsettled hscan hfold hsettle
    cases h.symm.trans hfailed
  | ok count =>
    obtain ⟨hsome, hnone⟩ := load_of_settled hscan hfold hsettle
    cases found with
    | none => cases h.symm.trans (hnone rfl)
    | some r' =>
      cases h.symm.trans (hsome r' rfl)
      rw [Option.map_some, Option.map_none, Option.or_none] at hfound
      have hmem := List.mem_reverse.mp (List.mem_of_find?_eq_some hfound.symm)
      have hkey := List.find?_some hfound.symm
      rw [decide_eq_true_eq] at hkey
      exact ⟨⟨⟨count, hsettle⟩, hplain, r.entry, hmem, hkey⟩, hmem, hkey, _, u, hfold, rfl⟩

theorem exists_load (hcache : s.cache.Recalls scan.entries)
    (hscan : s.disk.scan (s.loader.context.file range) range s.loader.context.maxEntrySize = scan)
    (hserves : scan.Serves s.loader.context.policy key) : ∃ r t, load key range s = .ok r t := by
  obtain ⟨⟨count, hsettle⟩, hplain, e, he, hkey⟩ := hserves
  have hreads : ∀ e ∈ scan.entries, (∃ e₀ ∈ scan.entries, e₀.ReadsAs e) ∧
      e.hasStateData = false := fun e he => ⟨⟨e, he, .inl rfl⟩, hplain e he⟩
  obtain ⟨found, t, hfold, -, hfound⟩ := foldlM_receive key none hcache hreads
  cases found with
  | some r => exact ⟨r, _, (load_of_settled hscan hfold hsettle).1 r rfl⟩
  | none =>
    rw [Option.map_none, Option.or_none] at hfound
    have hnone := List.find?_eq_none.mp hfound.symm e (List.mem_reverse.mpr he)
    exact absurd (decide_eq_true hkey) hnone

end Loader

def Segment.scanOn (seg : Segment) (disk : Disk) : Scan :=
  disk.scan seg.file seg.range seg.context.maxEntrySize

namespace Session

variable {s t : Session} {key : TermIndex} {r : EntryRef}

/-! ## A load that starts from an empty cache -/

theorem explain_eq_ok {α : Type} {m : Step α} {a : α} :
    explain key m s = .ok a t ↔ m s = .ok a t := by
  unfold explain
  cases m s with
  | ok b u => rfl
  | error cause u =>
    cases cause with
    | fault cause => simp
    | error cause =>
      dsimp only
      split <;> simp

theorem onLoader_eq_ok {α : Type} {m : Loader.Step α} {a : α} (h : onLoader m s = .ok a t) :
    ∃ l, m { s with loader := s.segment.loader, cache := s.segment.cache } = .ok a l ∧
      t = s.resumed l := by
  cases hm : m { s with loader := s.segment.loader, cache := s.segment.cache } with
  | ok b l =>
    rw [onLoader_of_ok hm] at h
    cases h
    exact ⟨l, rfl, rfl⟩
  | error cause l =>
    rw [onLoader_of_error hm] at h
    cases h

def evicted (s : Session) : Session :=
  { s with
    segment := { s.segment with cache := (s.segment.cache.evict s.refs).1 }
    refs := (s.segment.cache.evict s.refs).2 }

theorem cache_evicted (s : Session) :
    s.evicted.segment.cache = (s.segment.cache.evict s.refs).1 := rfl

theorem evict_eq (s : Session) : evict s = .ok () s.evicted := rfl

theorem evict_load (h : s.segment.Contains key.index) : (do evict; load key) s =
    explain key (onLoader (Loader.load key s.segment.range)) s.evicted := by
  have hmiss : cached? key s.evicted = .ok none s.evicted := by
    apply cached?_of_miss
    rw [Cache.get?, cache_evicted, Cache.find?_evict]
    rfl
  have hkey : s.evicted.segment.Contains key.index := h
  have hrange : s.evicted.segment.range = s.segment.range := Segment.range_of_books rfl
  rw [bind_of_ok (evict_eq s), load_of_miss hmiss hkey, hrange]

/-- What such a load hands out was scanned, and so it tells how many entries there were. -/
theorem evict_load_eq_ok (hcontains : s.segment.Contains key.index)
    (h : (do evict; load key) s = .ok r t) :
    (s.segment.scanOn s.disk).Serves s.segment.context.policy key ∧
      r.entry ∈ (s.segment.scanOn s.disk).entries ∧ r.entry.key = key ∧
      t.tally = s.tally.scanned (s.segment.scanOn s.disk).entries.length ∧
      (s.segment.cache.isClosed = false →
        t.segment.cache.entries = (s.segment.scanOn s.disk).entries.length) := by
  rw [evict_load hcontains, explain_eq_ok] at h
  obtain ⟨l, hload, rfl⟩ := onLoader_eq_ok h
  have hscan : s.evicted.disk.scan (s.segment.context.file s.segment.range) s.segment.range
      s.segment.context.maxEntrySize = s.segment.scanOn s.disk := rfl
  obtain ⟨hserves, hmem, hkey, found, u, hfold, rfl⟩ := Loader.load_eq_ok
    (s := { s.evicted with loader := s.segment.loader, cache := s.evicted.segment.cache })
    hscan hload
  obtain ⟨-, -, cache, refs, rfl⟩ := Loader.foldlM_receive_eq_ok hfold
  refine ⟨hserves, hmem, hkey, rfl, fun hopen => ?_⟩
  have hindices : Consecutive s.segment.range.start.toNat
      ((s.segment.scanOn s.disk).entries.map (·.index)) := (Host.scan_sound _ _ _ _).1
  have hopen' : s.evicted.segment.cache.isClosed = false := by
    rw [cache_evicted, Cache.isClosed_evict, hopen]
  have hnew : ∀ e ∈ (s.segment.scanOn s.disk).entries,
      s.evicted.segment.cache.find? e.key = none := by
    intro e _
    rw [cache_evicted, Cache.find?_evict]
  have hcount := Loader.entries_of_foldlM_receive
    (s := { s.evicted with loader := s.segment.loader, cache := s.evicted.segment.cache })
    hopen' hindices.nodup_keys hnew hfold
  rw [cache_evicted, Cache.entries_evict, Nat.zero_add] at hcount
  exact hcount

theorem exists_evict_load (hcontains : s.segment.Contains key.index)
    (hserves : (s.segment.scanOn s.disk).Serves s.segment.context.policy key) :
    ∃ r t, (do evict; load key) s = .ok r t := by
  have hrecalls : s.evicted.segment.cache.Recalls (s.segment.scanOn s.disk).entries :=
    Cache.recalls_evict _
  obtain ⟨r, l, hload⟩ := Loader.exists_load
    (s := { s.evicted with loader := s.segment.loader, cache := s.evicted.segment.cache })
    hrecalls rfl hserves
  rw [evict_load hcontains]
  exact ⟨r, _, explain_of_ok (onLoader_of_ok hload)⟩

end Session

theorem Segment.loadingTimes_of_ofRange {context : SegmentContext} {range : SegmentRange}
    {seg : Segment} (h : ofRange context range = .ok seg) : seg.loader.loadingTimes = 0 := by
  unfold ofRange at h
  split at h
  · cases h
    rfl
  · unfold closed at h
    split at h
    · cases h
    · obtain ⟨next, -, hseg⟩ := exceptBind_eq_ok.mp h
      cases hseg
      rfl

namespace Host

variable {host after : Host} {context : SegmentContext} {path : String} {range : SegmentRange}
  {keep : Bool} {seg : Segment} {entries more : List LogEntry} {start s t : Session} {e : LogEntry}

/-! ## What a reconstruction counts -/

theorem Loaded.tally_takeRead (h : Loaded start keep entries s)
    (htake : Host.takeRead keep e s = .ok () t) : t.tally = s.tally := by
  obtain ⟨u, hu, rfl⟩ := takeRead_eq_ok.mp htake
  obtain ⟨-, -, -, cache, refs, -, rfl⟩ :=
    (Session.take_eq_ok (s := { s with refs := (s.refs.wrap e).2 }) h.holds).mp hu
  rfl

theorem Loaded.tally_run (h : Loaded start keep entries s)
    (hrun : (more.forM (Host.takeRead keep)) s = .ok () t) : t.tally = s.tally := by
  induction more generalizing entries s with
  | nil =>
    obtain ⟨-, rfl⟩ := pure_eq_ok.mp hrun
    rfl
  | cons e more ih =>
    rw [List.forM_eq_forM, List.forM_cons] at hrun
    obtain ⟨_, u, htake, hrest⟩ := bind_eq_ok.mp hrun
    exact (ih (h.takeRead htake) hrest).trans (h.tally_takeRead htake)

theorem tally_of_loadSegment
    (h : loadSegment context path range keep host = .ok (some seg) after) :
    ({ after with segment := seg } : Session).tally = ⟨0, host.metrics.segmentLoads,
      host.metrics.entriesRead +
        (host.disk.scan path range context.maxEntrySize).entries.length⟩ := by
  obtain ⟨new, t, hseg, hrun, -, -, rfl, hcut⟩ := cut_of_loadSegment h
  obtain ⟨hnew, -, hcache, -, -⟩ := Segment.holds_of_ofRange hseg
  generalize host.disk.scan path range context.maxEntrySize = scan at *
  have htally := (loaded_nil { host with segment := new } _ hnew hcache).tally_run hrun
  obtain ⟨hloads, hmisses, hread⟩ := Session.Tally.mk.inj htally
  have hmetrics : after.metrics = (counted scan t).metrics :=
    congrArg (·.2.1) ((cutFile_within path _).of_ok hcut)
  change Session.Tally.mk _ after.metrics.segmentLoads after.metrics.entriesRead = _
  rw [hmetrics, Session.Tally.mk.injEq]
  refine ⟨hloads.trans (Segment.loadingTimes_of_ofRange hseg), hmisses, ?_⟩
  change t.metrics.entriesRead + scan.entries.length = _
  rw [hread]

/-! ## A segment that was just reconstructed -/

variable {id : FileId} {name : String}

/-- A closed segment ends with the last entry that was read. -/
theorem Yielded.last_range (h : Yielded context path range keep host entries seg after)
    (hclosed : range.isOpen = false) :
    seg.range.last = (entries.getLast h.nonempty).index := by
  have hpos : 0 < entries.length := List.length_pos_iff.mpr h.nonempty
  have hindex := h.holds.consecutive.toNat_getElem (k := entries.length - 1)
    (by rw [List.length_map]; omega)
  rw [List.getElem_map] at hindex
  have hlast := h.holds.last_range h.nonempty (h.isOpen.trans hclosed)
  rw [List.getLast_eq_getElem]
  apply UInt64.toNat_inj.mp
  omega

theorem Yielded.endsBy (h : Yielded context path range keep host entries seg after) :
    seg.range.EndsBy range := by
  refine ⟨seg.start_range.trans h.start, fun hclosed => ?_⟩
  refine ⟨seg.isOpen_range.trans (h.isOpen.trans hclosed), UInt64.not_lt.mp fun hlt => ?_⟩
  have hsound := (scan_sound host.disk path range context.maxEntrySize).2
  rw [h.scanned] at hsound
  rw [h.last_range hclosed] at hlt
  exact hsound _ (List.getLast_mem _) ⟨hclosed, hlt⟩

/-- A scan of what is left of the file hands over nothing but what was read. -/
theorem Yielded.prefix_of_scan (h : Yielded context path range keep host entries seg after)
    (hpath : host.disk.find path = .ok (.file id)) (hname : after.disk.find name = .ok (.file id)) :
    (after.disk.scan name seg.range context.maxEntrySize).entries <+: entries := by
  obtain ⟨id', hfile, -, hdisk⟩ := h.cut
  cases hpath.symm.trans hfile.find
  have hbytes : after.disk.content id = (host.disk.content id).take seg.fileSize :=
    hdisk ▸ Disk.content_setContent hfile.bound _
  have hscanned := h.scanned
  rw [Disk.scan_of_find _ _ hpath] at hscanned
  rw [Disk.scan_of_find _ _ hname, hbytes]
  by_cases hne : (Scan.ofSource name seg.range context.maxEntrySize
      { pending := (host.disk.content id).take seg.fileSize }).entries = []
  · rw [hne]
    exact List.nil_prefix
  · obtain ⟨portions, tail, hstarts, hentries⟩ := Scan.starts_of_ofSource hne
    obtain ⟨tail', hstarts'⟩ := hstarts.grow
      (Nat.le_add_right seg.fileSize (host.disk.content id).length) le_rfl h.endsBy
    rw [List.take_of_length_le (Nat.le_add_left _ _)] at hstarts'
    rw [← hentries, ← hscanned]
    exact Scan.ofSource_of_starts path hstarts'

/-- What is left of the file serves a miss of each entry, under whatever name, exactly if the file
started with the image of what was read. -/
theorem Yielded.serves_iff (h : Yielded context path range keep host entries seg after)
    (hpath : host.disk.HasFile path id) (hname : after.disk.HasFile name id)
    (policy : CorruptionPolicy) :
    (∀ e ∈ entries,
      (after.disk.scan name seg.range context.maxEntrySize).Serves policy e.key) ↔
    ∃ content, host.disk.read path = .ok content ∧ fileImage entries <+: content := by
  obtain ⟨id', hfile, hlength, hdisk⟩ := h.cut
  cases hpath.find.symm.trans hfile.find
  constructor
  · intro hserves
    have hprefix := h.prefix_of_scan hpath.find hname.find
    have hall : (after.disk.scan name seg.range context.maxEntrySize).entries = entries := by
      refine hprefix.eq_of_length_le ?_
      have hsub : entries.map (·.key) ⊆
          (after.disk.scan name seg.range context.maxEntrySize).entries.map (·.key) := by
        intro key hkey
        obtain ⟨e, he, rfl⟩ := List.mem_map.mp hkey
        obtain ⟨-, -, e', he', hsame⟩ := hserves e he
        exact hsame ▸ List.mem_map_of_mem he'
      have hle := (List.Nodup.subperm h.holds.consecutive.nodup_keys hsub).length_le
      rwa [List.length_map, List.length_map] at hle
    have hbytes : after.disk.content id = (host.disk.content id).take seg.fileSize :=
      hdisk ▸ Disk.content_setContent hfile.bound _
    rw [Disk.scan_of_find _ _ hname.find, hbytes] at hall
    have hunread := Scan.unread_eq_fileImage name seg.range context.maxEntrySize
      { pending := (host.disk.content id).take seg.fileSize }
    rw [hall] at hunread
    have himage : (host.disk.content id).take seg.fileSize = fileImage entries := by
      refine hunread h.plain h.nonempty ?_
      change _ = ((host.disk.content id).take seg.fileSize).length
      rw [← h.holds.fileSize, List.length_take, Nat.min_eq_left hlength]
    refine ⟨_, Disk.read_eq_ok.mpr ⟨id, hpath.find, rfl⟩, ?_⟩
    rw [← himage]
    exact List.take_prefix _ _
  · rintro ⟨content, hread, himage⟩ e he
    rw [(h.scan_again hread himage hname hpath).2]
    exact ⟨⟨_, Scan.settle_of_none rfl policy⟩, h.plain, e, he, rfl⟩

/-- The name a segment has in its present state leads back to the file if the file has this name in
the directory of the segment. -/
theorem Yielded.hasFile (h : Yielded context path range keep host entries seg after)
    (hdirectory : context.dataDir = Path.parent path)
    (hname : Path.name? path = some seg.range.name) (hpath : host.disk.HasFile path id) :
    after.disk.HasFile seg.file id := by
  obtain ⟨id', hfile, -, hdisk⟩ := h.cut
  cases hpath.find.symm.trans hfile.find
  have hleft : after.disk.HasFile path id := hdisk ▸ hfile.setContent _
  rw [Segment.file, h.context, SegmentContext.file, SegmentRange.fileIn, hdirectory]
  exact ⟨Disk.find_join_parent hname hleft.find, hleft.bound⟩

end Host

end SegmentedLog
