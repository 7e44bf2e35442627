import SegmentedLog.Proofs.Taking
import SegmentedLog.Segment.Reconstruction

/-! # Taking in what a scan read

Entries from a file are taken in one by one, each shared for as long as that takes. The invariant
tells what the session has come to after any part of the scan; a run that ends well has taken in the
whole of it, and a run that fails leaves the disk as it was.
-/

namespace SegmentedLog.Host

open Stepwise

variable {start s t : Session} {keep : Bool} {entries more : List LogEntry} {e : LogEntry}
  {scan : Scan} {policy : CorruptionPolicy} {host : Host} {seg : Segment}

/-- What a session has come to that took in `entries` since it was `start`. -/
structure Loaded (start : Session) (keep : Bool) (entries : List LogEntry) (s : Session) :
    Prop where
  holds : s.segment.Holds entries
  cache : s.segment.cache.Shows (if keep then entries else [])
  first : s.segment.start = start.segment.start
  context : s.segment.context = start.segment.context
  isOpen : s.segment.isOpen = start.segment.isOpen
  disk : s.disk = start.disk
  sink : s.sink = entries.foldl Sink.accept start.sink
  plain : ∀ e ∈ entries, e.hasStateData = false

theorem loaded_nil (start : Session) (keep : Bool) (hholds : start.segment.Holds [])
    (hcache : start.segment.cache = {}) : Loaded start keep [] start := by
  refine ⟨hholds, ?_, rfl, rfl, rfl, rfl, rfl, by simp⟩
  rw [hcache]
  cases keep <;> exact Cache.shows_empty

/-! ## One entry -/

theorem takeRead_eq_ok : takeRead keep e s = .ok () t ↔
    ∃ u, Session.take .load (s.refs.wrap e).1 keep { s with refs := (s.refs.wrap e).2 } = .ok () u ∧
      t = { u with refs := u.refs.release (s.refs.wrap e).1 } := by
  unfold takeRead
  cases htake : Session.take .load (s.refs.wrap e).1 keep { s with refs := (s.refs.wrap e).2 } with
  | error cause u => simp [htake]
  | ok x u => simp [htake, eq_comm]

theorem takeRead_within (keep : Bool) (e : LogEntry) :
    Within (fun s : Session => s.disk) Failure.IsFault (takeRead keep e) := by
  intro s
  have htake := Session.take_within .load (s.refs.wrap e).1 keep
    { s with refs := (s.refs.wrap e).2 }
  unfold takeRead
  dsimp only
  split at htake
  · next hresult =>
    rw [hresult]
    exact htake
  · next hresult =>
    rw [hresult]
    exact htake

theorem Loaded.key_ne (h : Loaded start keep entries s)
    (hindex : e.index.toNat = s.segment.start.toNat + entries.length) :
    ∀ e' ∈ entries, e'.key ≠ e.key := by
  intro e' he' hkey
  have hmem := (h.holds.consecutive.mem_iff (i := e'.index)).mp (List.mem_map_of_mem he')
  have hsame : e'.index = e.index := congrArg TermIndex.index hkey
  rw [List.length_map, hsame, hindex] at hmem
  exact Nat.lt_irrefl _ hmem.2

/-- An entry without state machine data is taken in when it is the next one. -/
theorem Loaded.exists_takeRead (h : Loaded start keep entries s) (hplain : e.hasStateData = false)
    (hindex : e.index.toNat = s.segment.start.toNat + entries.length)
    (hbound : e.index.toNat + 1 < UInt64.size) : ∃ t, takeRead keep e s = .ok () t := by
  have hadmits : SizePurpose.load.Admits e := .inr hplain
  obtain ⟨cache, refs, hcache⟩ := Session.exists_cachesTo (r := (s.refs.wrap e).1)
    { s with refs := (s.refs.wrap e).2 } keep hadmits
  have htake := (Session.take_eq_ok (s := { s with refs := (s.refs.wrap e).2 })
    (r := (s.refs.wrap e).1) h.holds).mpr ⟨hindex, hadmits, hbound, cache, refs, hcache, rfl⟩
  exact ⟨_, takeRead_eq_ok.mpr ⟨_, htake, rfl⟩⟩

theorem Loaded.takeRead (h : Loaded start keep entries s) (htake : takeRead keep e s = .ok () t) :
    Loaded start keep (entries ++ [e]) t := by
  obtain ⟨u, hu, rfl⟩ := takeRead_eq_ok.mp htake
  obtain ⟨hindex, hadmits, hbound, cache, refs, hcache, rfl⟩ :=
    (Session.take_eq_ok (s := { s with refs := (s.refs.wrap e).2 }) h.holds).mp hu
  have hplain : e.hasStateData = false := by
    rcases hadmits with hload | hplain
    · cases hload
    · exact hplain
  refine ⟨Session.holds_taken h.holds hindex hbound, ?_, h.first, h.context, h.isOpen, h.disk, ?_,
    ?_⟩
  · change cache.Shows _
    cases keep with
    | false =>
      rw [hcache.1]
      exact h.cache
    | true =>
      obtain ⟨refs', hretain⟩ := RefCounts.retain?_wrap s.refs e
      exact Cache.Shows.put h.cache (h.key_ne hindex) hretain hcache
  · change s.sink.accept e = _
    rw [h.sink, List.foldl_append]
    rfl
  · intro e' he'
    rcases List.mem_append.mp he' with he' | he'
    · exact h.plain e' he'
    · rw [List.mem_singleton.mp he']
      exact hplain

/-! ## A run of entries -/

theorem Loaded.run (h : Loaded start keep entries s)
    (hrun : (more.forM (Host.takeRead keep)) s = .ok () t) :
    Loaded start keep (entries ++ more) t := by
  induction more generalizing entries s with
  | nil =>
    obtain ⟨-, rfl⟩ := pure_eq_ok.mp hrun
    rw [List.append_nil]
    exact h
  | cons e more ih =>
    rw [List.forM_eq_forM, List.forM_cons] at hrun
    obtain ⟨_, u, htake, hrest⟩ := bind_eq_ok.mp hrun
    have hloaded := ih (h.takeRead htake) hrest
    rw [List.append_assoc] at hloaded
    exact hloaded

theorem Loaded.exists_run (h : Loaded start keep entries s) (more : List LogEntry)
    (hplain : ∀ e ∈ more, e.hasStateData = false)
    (hindices : Consecutive (s.segment.start.toNat + entries.length) (more.map (·.index)))
    (hbound : ∀ e ∈ more, e.index.toNat + 1 < UInt64.size) :
    ∃ t, (more.forM (Host.takeRead keep)) s = .ok () t := by
  induction more generalizing entries s with
  | nil => exact ⟨s, rfl⟩
  | cons e more ih =>
    rw [List.map_cons, Consecutive.cons_iff] at hindices
    obtain ⟨u, htake⟩ := h.exists_takeRead (hplain e (by simp)) hindices.1 (hbound e (by simp))
    have hu := h.takeRead htake
    obtain ⟨t, hrest⟩ := ih hu (fun e' he' => hplain e' (by simp [he']))
      (by rw [hu.first, ← h.first, List.length_append]; exact hindices.2)
      (fun e' he' => hbound e' (by simp [he']))
    refine ⟨t, ?_⟩
    rw [List.forM_eq_forM, List.forM_cons]
    exact bind_eq_ok.mpr ⟨_, u, htake, hrest⟩

/-! ## A whole scan -/

def counted (scan : Scan) (s : Session) : Session :=
  { s with metrics :=
      { s.metrics with entriesRead := s.metrics.entriesRead + scan.entries.length } }

theorem settle_eq_error {cause : Failure} (h : scan.settle policy = .error cause) :
    scan.failure = some cause := by
  unfold Scan.settle at h
  split at h
  · next hfailure =>
    cases h
    exact hfailure
  · next hfailure =>
    cases h
    exact hfailure
  · cases h
  · cases h

theorem takeScan_of_ok {n : Nat} (hrun : (scan.entries.forM (takeRead keep)) s = .ok () t)
    (hsettle : scan.settle policy = .ok n) :
    takeScan scan policy keep s = .ok () (counted scan t) := by
  unfold takeScan
  rw [bind_of_ok hrun]
  unfold Scan.settle at hsettle ⊢
  match hfailure : scan.failure, policy with
  | some (.fault cause), _ => simp [hfailure] at hsettle
  | some (.error cause), .strict => simp [hfailure] at hsettle
  | some (.error cause), .tolerant =>
    simp only
    rfl
  | none, _ =>
    simp only
    rfl

theorem takeScan_of_error {cause : Failure}
    (hrun : (scan.entries.forM (takeRead keep)) s = .ok () t)
    (hsettle : scan.settle policy = .error cause) :
    ∃ u, takeScan scan policy keep s = .error cause u ∧ u.disk = t.disk := by
  have hfailure := settle_eq_error hsettle
  unfold takeScan
  rw [bind_of_ok hrun]
  cases cause with
  | fault cause =>
    rw [hfailure]
    exact ⟨t, rfl, rfl⟩
  | error cause =>
    rw [hfailure, hsettle]
    exact ⟨counted scan t, rfl, rfl⟩

theorem takeScan_eq_ok (h : takeScan scan policy keep s = .ok () t) :
    ∃ u, (scan.entries.forM (takeRead keep)) s = .ok () u ∧ t = counted scan u := by
  obtain ⟨_, u, hrun, hrest⟩ := bind_eq_ok.mp h
  refine ⟨u, hrun, ?_⟩
  cases hsettle : scan.settle policy with
  | ok n =>
    rw [takeScan_of_ok hrun hsettle] at h
    cases h
    rfl
  | error cause =>
    obtain ⟨v, hfailed, -⟩ := takeScan_of_error hrun hsettle
    rw [hfailed] at h
    cases h

/-- A scan that is not accepted leaves the disk as it was, and fails as an entry or the scan did. -/
theorem takeScan_eq_error {cause : Failure} (h : takeScan scan policy keep s = .error cause t) :
    t.disk = s.disk ∧ (cause.IsFault ∨ scan.failure = some cause) := by
  have hwithin := Within.forM (fun e => takeRead_within keep e) scan.entries
  cases hrun : (scan.entries.forM (takeRead keep)) s with
  | error cause' u =>
    have hfailed : takeScan scan policy keep s = .error cause' u := bind_of_error hrun
    rw [hfailed] at h
    cases h
    obtain ⟨hdisk, hfault⟩ := hwithin.of_error hrun
    exact ⟨hdisk, .inl hfault⟩
  | ok _ u =>
    have hdisk := hwithin.of_ok hrun
    cases hsettle : scan.settle policy with
    | ok n =>
      rw [takeScan_of_ok hrun hsettle] at h
      cases h
    | error cause' =>
      obtain ⟨v, hfailed, hv⟩ := takeScan_of_error hrun hsettle
      rw [hfailed] at h
      cases h
      exact ⟨hv.trans hdisk, .inr (settle_eq_error hsettle)⟩

/-! ## On a segment of its own -/

theorem withSegment_of_ok {m : Session.Step Unit} (h : m { host with segment := seg } = .ok () s) :
    withSegment seg m host = .ok s.segment s.toHost := by
  simp only [withSegment, h]

theorem withSegment_of_error {m : Session.Step Unit} {cause : Failure}
    (h : m { host with segment := seg } = .error cause s) :
    withSegment seg m host =
      .error cause { s.toHost with refs := s.segment.drop s.refs } := by
  simp only [withSegment, h]

end SegmentedLog.Host
