import SegmentedLog.Proofs.Accounts

/-! # What is read for a key

A cache that holds nothing but entries of the segment answers for them, and a miss is served by a
scan of the file. If the scan hands over exactly the entries of the segment, as they are in the
file, then whatever was cached before, an entry of the segment is read and no other, and the cache
holds nothing else afterwards.
-/

namespace SegmentedLog

open Stepwise

namespace Loader

variable {s t u : Loading} {key : TermIndex} {entries pool : List LogEntry}
  {found : Option EntryRef} {e e₀ : LogEntry} {range : SegmentRange}

/-! ## What loading leaves alone -/

def lasting (s : Loading) : SegmentContext × Disk := (s.loader.context, s.disk)

theorem receive_within (key : TermIndex) (found : Option EntryRef) (e : LogEntry) :
    Within lasting (fun _ => True) (receive key found e) := by
  intro s
  rw [receive, get_bind]
  dsimp only
  cases s.cache.put (s.refs.wrap e).2 e.key (s.refs.wrap e).1 .load with
  | error cause => exact ⟨rfl, trivial⟩
  | ok p =>
    dsimp only
    by_cases hkey : e.key = key
    · rw [if_pos hkey]
      rfl
    · rw [if_neg hkey]
      rfl

theorem load_within (key : TermIndex) (range : SegmentRange) :
    Within lasting (fun _ => True) (load key range) := by
  refine .bind .get fun s => .bind (.foldlM (receive_within key) _ _) fun found => ?_
  dsimp only
  split
  · exact .bind (.modify fun _ => rfl) fun _ => .throw trivial
  · refine .bind (.modify fun _ => rfl) fun _ => ?_
    split
    · exact .bind (.modify fun _ => rfl) fun _ => .throw trivial
    · split
      · exact .pure _
      · exact .throw trivial

/-! ## What is found in a scan -/

/-- An entry without state machine data is cached, and handed on if it is the wanted one. -/
theorem exists_receive (s : Loading) (key : TermIndex) (found : Option EntryRef)
    (hplain : e.hasStateData = false) : ∃ cache placed refs,
      s.cache.put (s.refs.wrap e).2 e.key (s.refs.wrap e).1 .load = .ok (cache, placed) ∧
        receive key found e s =
          .ok (if e.key = key then some (s.refs.wrap e).1 else found) { s with cache, refs } := by
  have hadmits : SizePurpose.load.Admits (s.refs.wrap e).1.entry := .inr hplain
  obtain ⟨cache, placed, hput⟩ : ∃ cache placed,
      s.cache.put (s.refs.wrap e).2 e.key (s.refs.wrap e).1 .load = .ok (cache, placed) :=
    Cache.put_of_admits _ _ _ hadmits
  rw [receive, get_bind]
  dsimp only
  rw [hput]
  dsimp only
  by_cases hkey : e.key = key
  · rw [if_pos hkey, if_pos hkey]
    exact ⟨cache, placed, _, rfl, rfl⟩
  · rw [if_neg hkey, if_neg hkey]
    exact ⟨cache, placed, _, rfl, rfl⟩

theorem receive_of_plain (key : TermIndex) (found : Option EntryRef) (hcache : s.cache.Recalls pool)
    (he₀ : e₀ ∈ pool) (hread : e₀.ReadsAs e) (hplain : e.hasStateData = false) :
    ∃ found' t, receive key found e s = .ok found' t ∧ t.cache.Recalls pool ∧
      found'.map (·.entry) = if e.key = key then some e else found.map (·.entry) := by
  obtain ⟨cache, placed, refs, hput, hreceive⟩ := exists_receive s key found hplain
  refine ⟨_, _, hreceive, hcache.put he₀ hread hput, ?_⟩
  split <;> rfl

/-- Of several entries under the wanted key the last one is handed on. -/
theorem foldlM_receive (key : TermIndex) (found : Option EntryRef) (hcache : s.cache.Recalls pool)
    (hentries : ∀ e ∈ entries, (∃ e₀ ∈ pool, e₀.ReadsAs e) ∧ e.hasStateData = false) :
    ∃ found' t, entries.foldlM (receive key) found s = .ok found' t ∧ t.cache.Recalls pool ∧
      found'.map (·.entry) =
        (entries.reverse.find? (·.key = key)).or (found.map (·.entry)) := by
  induction entries generalizing found s with
  | nil => exact ⟨found, s, rfl, hcache, rfl⟩
  | cons e entries ih =>
    obtain ⟨⟨e₀, he₀, hread⟩, hplain⟩ := hentries e (by simp)
    obtain ⟨found', t, hreceive, hrecalls, hfound⟩ :=
      receive_of_plain key found hcache he₀ hread hplain
    obtain ⟨found'', u, hrest, hrecalls', hfound'⟩ :=
      ih found' hrecalls fun e he => hentries e (by simp [he])
    refine ⟨found'', u, ?_, hrecalls', ?_⟩
    · rw [List.foldlM_cons, bind_of_ok hreceive, hrest]
    · rw [hfound', hfound, List.reverse_cons, List.find?_append]
      by_cases hkey : e.key = key
      · simp [hkey]
      · simp [hkey]

def counted (count : Nat) (s : Loading) : Loading :=
  { s with
    metrics :=
      { segmentLoads := s.metrics.segmentLoads + 1
        entriesRead := s.metrics.entriesRead + count }
    loader := { s.loader with loadingTimes := s.loader.loadingTimes + 1 } }

theorem load_of_run {context : SegmentContext} (hcontext : s.loader.context = context)
    (hscan : s.disk.scan (context.file range) range context.maxEntrySize = ⟨entries, none⟩)
    (hfold : entries.foldlM (receive key) none s = .ok found t) : load key range s =
      match found with
      | some r => .ok r (counted entries.length t)
      | none => .error (.error (.entryNotFound key (context.file range) entries.length))
          (counted entries.length t) := by
  rw [load, get_bind]
  dsimp only
  rw [hcontext, hscan]
  dsimp only
  rw [bind_of_ok hfold, modify_bind]
  cases found <;> rfl

/-- A scan of exactly the pool, as it is in the file, reads an entry of it or finds none. -/
theorem load_of_scan (key : TermIndex) (hcache : s.cache.Recalls pool)
    (hscan : s.disk.scan (s.loader.context.file range) range s.loader.context.maxEntrySize =
      ⟨pool.map (·.stripped), none⟩) :
    ∃ t, t.cache.Recalls pool ∧
      ((∃ r, load key range s = .ok r t ∧ ∃ e ∈ pool, e.key = key ∧ e.ReadsAs r.entry) ∨
        (∃ path count, load key range s = .error (.error (.entryNotFound key path count)) t) ∧
          ∀ e ∈ pool, e.key ≠ key) := by
  have hstripped : ∀ e ∈ pool.map (·.stripped),
      (∃ e₀ ∈ pool, e₀.ReadsAs e) ∧ e.hasStateData = false := by
    intro e he
    obtain ⟨e₀, he₀, rfl⟩ := List.mem_map.mp he
    exact ⟨⟨e₀, he₀, .inr rfl⟩, rfl⟩
  obtain ⟨found, t, hfold, hrecalls, hfound⟩ := foldlM_receive key none hcache hstripped
  rw [Option.map_none, Option.or_none] at hfound
  have hload := load_of_run rfl hscan hfold
  refine ⟨counted (pool.map (·.stripped)).length t, hrecalls, ?_⟩
  cases found with
  | some r =>
    have hmem := List.mem_of_find?_eq_some hfound.symm
    have hkey := List.find?_some hfound.symm
    obtain ⟨e, he, hread⟩ := List.mem_map.mp (List.mem_reverse.mp hmem)
    rw [← hread] at hkey
    exact .inl ⟨r, hload, e, he, of_decide_eq_true hkey, .inr hread.symm⟩
  | none =>
    refine .inr ⟨⟨_, _, hload⟩, fun e he hkey => ?_⟩
    have hnone := List.find?_eq_none.mp hfound.symm e.stripped
      (List.mem_reverse.mpr (List.mem_map_of_mem he))
    exact hnone (decide_eq_true hkey)

end Loader

namespace Session

variable {s t : Session} {key : TermIndex} {entries : List LogEntry}

/-! ## What reading leaves alone -/

/-- What a session has that reading does not change. -/
def lasting (s : Session) : Segment.Books × SegmentContext × Disk :=
  (s.segment.books, s.segment.context, s.disk)

theorem evict_within : Within lasting (fun _ => True) evict := .modify fun _ => rfl

theorem cached?_within (key : TermIndex) : Within lasting (fun _ => True) (cached? key) := by
  intro s
  rw [cached?, get_bind]
  cases s.segment.cache.get? s.refs key with
  | none => rfl
  | some p => rfl

theorem cached?_of_miss (h : s.segment.cache.get? s.refs key = none) :
    cached? key s = .ok none s := by
  rw [cached?, get_bind, h]
  rfl

theorem cached?_of_hit {r : EntryRef} {refs : RefCounts}
    (h : s.segment.cache.get? s.refs key = some (r, refs)) :
    cached? key s = .ok (some r) { s with refs } := by
  rw [cached?, get_bind, h]
  rfl

theorem onLoader_within {α : Type} {m : Loader.Step α}
    (h : Within Loader.lasting (fun _ => True) m) :
    Within lasting (fun _ => True) (onLoader m) := by
  intro s
  unfold onLoader
  cases hm : m { s with loader := s.segment.loader, cache := s.segment.cache } with
  | ok a l =>
    have hkept := h.of_ok hm
    exact Prod.ext rfl hkept
  | error cause l =>
    have hkept := (h.of_error hm).1
    exact ⟨Prod.ext rfl hkept, trivial⟩

theorem explain_within {α : Type} (key : TermIndex) {m : Step α}
    (h : Within lasting (fun _ => True) m) : Within lasting (fun _ => True) (explain key m) := by
  intro s
  unfold explain
  cases hm : m s with
  | ok a t => exact h.of_ok hm
  | error cause t =>
    have hkept := h.of_error hm
    match cause with
    | .fault _ => exact hkept
    | .error cause =>
      dsimp only
      cases cause.errorClass <;> exact ⟨hkept.1, trivial⟩

/-- Looking for an entry changes nothing else, wherever it is found. -/
theorem load_within (key : TermIndex) : Within lasting (fun _ => True) (load key) := by
  refine .bind (cached?_within key) fun r? => ?_
  match r? with
  | some r => exact .pure r
  | none =>
    refine .bind .get fun s => .ite ?_ (.throw trivial)
    have hload := onLoader_within (Loader.load_within key s.segment.range)
    exact explain_within key hload

/-! ## What is read -/

/-- Whether some entries are all that a session may read: its accounts tell of them, the cache
recalls no others, and a scan of the file hands over these. -/
structure Coherent (s : Session) (entries : List LogEntry) : Prop where
  spans : s.segment.Spans headerSize entries
  cache : s.segment.cache.Recalls entries
  scan : entries ≠ [] →
    s.disk.scan s.segment.file s.segment.range s.segment.context.maxEntrySize =
      ⟨entries.map (·.stripped), none⟩

theorem Coherent.of_lasting (h : s.Coherent entries) (hlasting : t.lasting = s.lasting)
    (hcache : t.segment.cache.Recalls entries) : t.Coherent entries := by
  obtain ⟨hbooks, hrest⟩ := Prod.ext_iff.mp hlasting
  obtain ⟨hcontext, hdisk⟩ := Prod.ext_iff.mp hrest
  have hrange := Segment.range_of_books hbooks
  refine ⟨h.spans.of_books hbooks, hcache, fun hne => ?_⟩
  change t.segment.context = s.segment.context at hcontext
  change t.disk = s.disk at hdisk
  rw [Segment.file, hdisk, hrange, hcontext]
  exact h.scan hne

/-- What the cache answers with is an entry of the segment. -/
theorem Coherent.cached? (h : s.Coherent entries) (key : TermIndex) :
    ∃ r? t, cached? key s = .ok r? t ∧ t.Coherent entries ∧ t.lasting = s.lasting ∧
      ∀ r, r? = some r → ∃ e ∈ entries, e.key = key ∧ e.ReadsAs r.entry := by
  cases hget : s.segment.cache.get? s.refs key with
  | none => exact ⟨none, s, cached?_of_miss hget, h, rfl, nofun⟩
  | some found =>
    rcases found with ⟨r, refs⟩
    refine ⟨some r, { s with refs }, cached?_of_hit hget, h.of_lasting rfl h.cache, rfl, ?_⟩
    rintro _ ⟨⟩
    exact h.cache.get? hget

/-- Once records were taken off, the cache recalls none of their entries. -/
theorem recalls_trimmed {base : Nat} (h : s.segment.Spans base entries)
    (hcache : s.segment.cache.Recalls entries) (count : Nat) :
    (s.trimmed count).segment.cache.Recalls (entries.take count) := by
  intro key r hfound
  rw [find?_trimmed, h.records, List.map_drop, LogRecord.map_key_layout, ← List.map_drop] at hfound
  split at hfound
  · cases hfound
  · next hkept =>
    obtain ⟨e, he, hkey, hread⟩ := hcache key r hfound
    refine ⟨e, ?_, hkey, hread⟩
    rw [← List.take_append_drop count entries, List.mem_append] at he
    rcases he with he | he
    · exact he
    · exact absurd (hkey ▸ List.mem_map_of_mem he) hkept

theorem load_of_cached {r : EntryRef} (h : cached? key s = .ok (some r) t) :
    load key s = .ok r t := by
  rw [load, bind_of_ok h]
  rfl

theorem load_of_outside (h : cached? key s = .ok none t) (hkey : ¬ t.segment.Contains key.index) :
    load key s = .error (.error (.outsideSegment key t.segment.name)) t := by
  rw [load, bind_of_ok h]
  dsimp only
  rw [get_bind, if_neg hkey]
  rfl

theorem load_of_miss (h : cached? key s = .ok none t) (hkey : t.segment.Contains key.index) :
    load key s = explain key (onLoader (Loader.load key t.segment.range)) t := by
  rw [load, bind_of_ok h]
  dsimp only
  rw [get_bind, if_pos hkey]

def resumed (s : Session) (l : Loading) : Session :=
  { l with segment := { s.segment with cache := l.cache, loader := l.loader } }

theorem onLoader_of_ok {α : Type} {m : Loader.Step α} {a : α} {l : Loading}
    (h : m { s with loader := s.segment.loader, cache := s.segment.cache } = .ok a l) :
    onLoader m s = .ok a (s.resumed l) := by
  simp only [onLoader, h, resumed]

theorem onLoader_of_error {α : Type} {m : Loader.Step α} {cause : Failure} {l : Loading}
    (h : m { s with loader := s.segment.loader, cache := s.segment.cache } = .error cause l) :
    onLoader m s = .error cause (s.resumed l) := by
  simp only [onLoader, h, resumed]

theorem explain_of_ok {α : Type} {m : Step α} {a : α} (h : m s = .ok a t) :
    explain key m s = .ok a t := by
  simp only [explain, h]

theorem explain_of_entryRead {α : Type} {m : Step α} {cause : SegmentError} {key' : TermIndex}
    (h : m s = .error (.error cause) t) (hclass : cause.errorClass = .entryRead key') :
    explain key m s = .error (.error cause) t := by
  simp only [explain, h, hclass]

/-- A load reads an entry of the segment under the key, or tells that there is none. -/
theorem Coherent.load (h : s.Coherent entries) (key : TermIndex) :
    ∃ t, t.Coherent entries ∧ t.lasting = s.lasting ∧
      ((∃ r, load key s = .ok r t ∧ ∃ e ∈ entries, e.key = key ∧ e.ReadsAs r.entry) ∨
        (∃ cause, load key s = .error (.error cause) t ∧ cause.errorClass = .entryRead key) ∧
          ∀ e ∈ entries, e.key ≠ key) := by
  obtain ⟨r?, u, hcached, hu, hlasting, hread⟩ := h.cached? key
  cases r? with
  | some r => exact ⟨u, hu, hlasting, .inl ⟨r, load_of_cached hcached, hread r rfl⟩⟩
  | none =>
    by_cases hkey : u.segment.Contains key.index
    · have hne : entries ≠ [] := by
        rintro rfl
        exact absurd (hu.spans.contains_iff.mp hkey) List.not_mem_nil
      obtain ⟨l, hrecalls, hresult⟩ := Loader.load_of_scan key
        (s := { u with loader := u.segment.loader, cache := u.segment.cache }) hu.cache
        (hu.scan hne)
      rcases hresult with ⟨r, hl, hfound⟩ | ⟨⟨path, count, hl⟩, hnone⟩
      · have hload : Session.load key s = .ok r (u.resumed l) :=
          (load_of_miss hcached hkey).trans (explain_of_ok (onLoader_of_ok hl))
        have hkept := (load_within key).of_ok hload
        exact ⟨_, h.of_lasting hkept hrecalls, hkept, .inl ⟨r, hload, hfound⟩⟩
      · have hload : Session.load key s = .error (.error (.entryNotFound key path count))
            (u.resumed l) := by
          rw [load_of_miss hcached hkey]
          exact explain_of_entryRead (onLoader_of_error hl) rfl
        have hkept := ((load_within key).of_error hload).1
        exact ⟨_, h.of_lasting hkept hrecalls, hkept, .inr ⟨⟨_, hload, rfl⟩, hnone⟩⟩
    · refine ⟨u, hu, hlasting, .inr ⟨⟨_, load_of_outside hcached hkey, rfl⟩, fun e he heq => ?_⟩⟩
      rw [← heq] at hkey
      exact hkey (hu.spans.contains_iff.mpr (List.mem_map_of_mem he))

/-- However reading ends, it leaves the accounts and recalls no other entries. -/
theorem Coherent.leaves_cached? (h : s.Coherent entries) (key : TermIndex) :
    Leaves (fun t => t.lasting = s.lasting ∧ t.segment.cache.Recalls entries)
      (Session.cached? key) s := by
  obtain ⟨r?, t, hcached, ht, hlasting, -⟩ := h.cached? key
  unfold Leaves
  rw [hcached]
  exact ⟨hlasting, ht.cache⟩

theorem Coherent.leaves_load (h : s.Coherent entries) (key : TermIndex) :
    Leaves (fun t => t.lasting = s.lasting ∧ t.segment.cache.Recalls entries)
      (Session.load key) s := by
  obtain ⟨t, ht, hlasting, ⟨r, hload, -⟩ | ⟨⟨cause, hload, -⟩, -⟩⟩ := h.load key
  · unfold Leaves
    rw [hload]
    exact ⟨hlasting, ht.cache⟩
  · unfold Leaves
    rw [hload]
    exact ⟨hlasting, ht.cache⟩

/-- Whether an entry is what is read for a key: a load gives it, and the cache gives no other. -/
structure Reads (s : Session) (key : TermIndex) (e : LogEntry) : Prop where
  load : ∃ r t, Session.load key s = .ok r t ∧ e.ReadsAs r.entry
  cached : ∃ r? t, Session.cached? key s = .ok r? t ∧ ∀ r, r? = some r → e.ReadsAs r.entry

structure Misses (s : Session) (key : TermIndex) : Prop where
  load : ∃ cause t, Session.load key s = .error (.error cause) t ∧
    cause.errorClass = .entryRead key
  cached : ∃ t, Session.cached? key s = .ok none t

/-- An entry of the segment is read under its key, as no other has it. -/
theorem Coherent.reads (h : s.Coherent entries) {e : LogEntry} (he : e ∈ entries) :
    s.Reads e.key e := by
  have hunique (e' : LogEntry) (he' : e' ∈ entries) (hkey : e'.key = e.key) : e' = e :=
    List.inj_on_of_nodup_map h.spans.consecutive.nodup he' he (congrArg TermIndex.index hkey)
  constructor
  · obtain ⟨t, -, -, ⟨r, hload, e', he', hkey, hread⟩ | ⟨-, hnone⟩⟩ := h.load e.key
    · exact ⟨r, t, hload, hunique e' he' hkey ▸ hread⟩
    · exact absurd rfl (hnone e he)
  · obtain ⟨r?, t, hcached, -, -, hread⟩ := h.cached? e.key
    refine ⟨r?, t, hcached, fun r hr => ?_⟩
    obtain ⟨e', he', hkey, hread⟩ := hread r hr
    exact hunique e' he' hkey ▸ hread

theorem Coherent.misses (h : s.Coherent entries) (hkey : ∀ e ∈ entries, e.key ≠ key) :
    s.Misses key := by
  constructor
  · obtain ⟨t, -, -, ⟨r, -, e, he, heq, -⟩ | ⟨⟨cause, hload, hclass⟩, -⟩⟩ := h.load key
    · exact absurd heq (hkey e he)
    · exact ⟨cause, t, hload, hclass⟩
  · obtain ⟨r?, t, hcached, -, -, hread⟩ := h.cached? key
    cases r? with
    | none => exact ⟨t, hcached⟩
    | some r =>
      obtain ⟨e, he, heq, -⟩ := hread r rfl
      exact absurd heq (hkey e he)

end Session

end SegmentedLog
