import SegmentedLog.Proofs.Reconstruction

/-! # The effects of a reconstruction on files

Nothing is assumed about the bytes of the file here, nor about the disk. Lengths may have been
written longer than necessary and data may stand behind an entry, so what a frame took in the file
can be more than what the entry is accounted with; it is never less, and therefore there is
something to cut.
-/

namespace SegmentedLog.Host

open Stepwise

variable {host after : Host} {path : String} {range : SegmentRange} {seg : Segment}
  {entries : List LogEntry}

/-- What a scan handed over stood in a file at the path, which had room for it. -/
theorem fileSize_le_of_scan (range : SegmentRange) (limit : Nat) {id : FileId}
    (hfind : host.disk.find path = .ok (.file id))
    (hne : (host.disk.scan path range limit).entries ≠ []) :
    headerSize + ((host.disk.scan path range limit).entries.map (·.footprint)).sum ≤
      (host.disk.content id).length := by
  rw [Disk.scan_of_find range limit hfind] at hne ⊢
  exact (Scan.ofSource_sound path range limit _).2.2 hne

theorem scan_sound (disk : Disk) (path : String) (range : SegmentRange) (limit : Nat) :
    Consecutive range.start.toNat ((disk.scan path range limit).entries.map (·.index)) ∧
      ∀ e ∈ (disk.scan path range limit).entries, ¬ range.EndsBefore e.index := by
  cases hfind : disk.find path with
  | error cause =>
    simp only [Disk.scan, hfind]
    exact ⟨Consecutive.nil, by simp [Scan.failed]⟩
  | ok node =>
    simp only [Disk.scan, hfind]
    obtain ⟨hindices, hlast, -⟩ := Scan.ofSource_sound path range limit (disk.source node)
    exact ⟨hindices, hlast⟩

theorem reconcile_effects (path : String) (range : SegmentRange) (host : Host)
    (hholds : seg.Holds entries) (hstart : seg.start = range.start)
    (hroom : entries ≠ [] → ∀ id, host.disk.find path = .ok (.file id) →
      seg.fileSize ≤ (host.disk.content id).length) :
    match reconcile path range entries.length seg host with
    | .ok (some seg') after => seg' = seg ∧ entries ≠ [] ∧
        (∃ content, host.disk.read path = .ok content ∧ seg.fileSize ≤ content.length ∧
          after.disk.read path = .ok (content.take seg.fileSize)) ∧
        Disk.ChangedOnlyAt path host.disk after.disk
    | .ok none after => after.disk.find path = .error .notFound ∧
        Disk.ChangedOnlyAt path host.disk after.disk
    | .error cause after => after.disk = host.disk ∧ ¬ cause.IsInconsistent := by
  by_cases hne : entries = []
  · rw [hne, List.length_nil, reconcile_of_nothing]
    cases hremove : removeIfThere path host with
    | error cause after =>
      rw [bind_of_error hremove]
      exact removeIfThere_eq_error hremove
    | ok _ after =>
      rw [bind_of_ok hremove]
      exact removeIfThere_eq_ok hremove
  · cases hcut : cutFile path seg.fileSize host with
    | error cause after =>
      have hfailed := cutFile_eq_error hcut
      rw [reconcile_of_no_cut hholds hne hstart hcut]
      exact hfailed
    | ok _ after =>
      rw [reconcile_of_cut hholds hne hstart hcut]
      obtain ⟨id, hfind, hdisk⟩ := cutFile_eq_ok hcut
      have hlength := hroom hne id hfind
      have hpos : 0 < seg.fileSize := by
        rw [hholds.fileSize]
        exact Nat.lt_of_lt_of_le (by decide) (Nat.le_add_right headerSize _)
      have hbound : id.number < host.disk.contents.size := by
        apply Disk.bound_of_content_ne_nil
        intro hnil
        rw [hnil, List.length_nil] at hlength
        omega
      refine ⟨rfl, hne, ⟨host.disk.content id, ?_, hlength, ?_⟩, ?_⟩
      · exact Disk.read_eq_ok.mpr ⟨id, hfind, rfl⟩
      · rw [hdisk hlength]
        exact Disk.HasFile.read ⟨hfind, hbound⟩
      · rw [hdisk hlength]
        exact Disk.changedOnlyAt_setContent hfind

/-- The records of a segment that holds what a scan of the range handed over. -/
theorem records_of_scan (h : seg.Holds entries) (hne : entries ≠ [])
    (hindices : Consecutive range.start.toNat (entries.map (·.index)))
    (hlast : ∀ e ∈ entries, ¬ range.EndsBefore e.index) :
    seg.records ≠ [] ∧ Consecutive range.start.toNat (seg.records.map (·.index)) ∧
      (range.isOpen = false → ∀ r ∈ seg.records, r.index ≤ range.last) := by
  have hsame : seg.records.map (·.index) = entries.map (·.index) := by
    rw [h.records, LogRecord.map_index_layout]
  refine ⟨fun hnil => ?_, ?_, fun hopen r hr => ?_⟩
  · apply hne
    rw [hnil] at hsame
    exact List.map_eq_nil_iff.mp hsame.symm
  · rw [hsame]
    exact hindices
  · have hmem : r.index ∈ entries.map (·.index) := by
      rw [← hsame]
      exact List.mem_map_of_mem hr
    obtain ⟨e, he, hindex⟩ := List.mem_map.mp hmem
    rw [← hindex]
    exact UInt64.not_lt.mp fun hlt => hlast e he ⟨hopen, hlt⟩

/-- Whatever the file holds, a reconstruction that yields a segment has cut the file to the size the
segment accounts for, one that yields none has left no file, and one that fails has changed nothing.
No other file is touched, and a segment is never found to be inconsistent. -/
theorem loadSegment_effects (context : SegmentContext) (path : String) (range : SegmentRange)
    (keep : Bool) (host : Host) :
    match loadSegment context path range keep host with
    | .ok (some seg) after =>
        (∃ content, host.disk.read path = .ok content ∧ seg.fileSize ≤ content.length ∧
          after.disk.read path = .ok (content.take seg.fileSize)) ∧
        (seg.records ≠ [] ∧ Consecutive range.start.toNat (seg.records.map (·.index)) ∧
          (range.isOpen = false → ∀ r ∈ seg.records, r.index ≤ range.last)) ∧
        Disk.ChangedOnlyAt path host.disk after.disk
    | .ok none after => after.disk.find path = .error .notFound ∧
        Disk.ChangedOnlyAt path host.disk after.disk
    | .error cause after => after.disk = host.disk ∧ ¬ cause.IsInconsistent := by
  cases hseg : Segment.ofRange context range with
  | error fault =>
    rw [loadSegment_of_fault hseg]
    exact ⟨rfl, id⟩
  | ok seg =>
    obtain ⟨hnew, hstart, hcache, -, -⟩ := Segment.holds_of_ofRange hseg
    have hfailures := host.disk.scan_consistent path range context.maxEntrySize
    obtain ⟨hindices, hlast⟩ := scan_sound host.disk path range context.maxEntrySize
    have hfits (id : FileId) (hfind : host.disk.find path = .ok (.file id)) :=
      fileSize_le_of_scan range context.maxEntrySize hfind
    rw [loadSegment_of_range hseg]
    generalize host.disk.scan path range context.maxEntrySize = scan at *
    cases htake : takeScan scan context.policy (keep || range.isOpen)
        { host with segment := seg } with
    | error cause s =>
      rw [bind_of_error (withSegment_of_error htake)]
      rcases takeScan_eq_error htake with ⟨hdisk, hfault | hfailure⟩
      · rcases hfault with ⟨fault, rfl⟩
        exact ⟨hdisk, id⟩
      · exact ⟨hdisk, hfailures cause hfailure⟩
    | ok _ s =>
      obtain ⟨t, hrun, rfl⟩ := takeScan_eq_ok htake
      have hloaded := (loaded_nil _ _ hnew hcache).run hrun
      rw [List.nil_append] at hloaded
      rcases hloaded with ⟨hholds, -, hfirst, -, -, hdisk, -, -⟩
      have hresult : (withSegment seg (takeScan scan context.policy (keep || range.isOpen)) >>=
          reconcile path range scan.entries.length) host =
            reconcile path range scan.entries.length t.segment (counted scan t).toHost :=
        bind_of_ok (withSegment_of_ok htake)
      have hroom : scan.entries ≠ [] → ∀ id, (counted scan t).disk.find path = .ok (.file id) →
          t.segment.fileSize ≤ ((counted scan t).disk.content id).length := by
        intro hne id hfind
        change t.disk.find path = _ at hfind
        change _ ≤ (t.disk.content id).length
        rw [hdisk] at hfind ⊢
        rw [hholds.fileSize]
        exact hfits id hfind hne
      have heffects := reconcile_effects path range (counted scan t).toHost hholds
        (hfirst.trans hstart) hroom
      have hbefore : (counted scan t).disk = host.disk := hdisk
      rw [hbefore] at heffects
      rw [hresult]
      generalize reconcile path range scan.entries.length t.segment (counted scan t).toHost =
        result at heffects ⊢
      match result with
      | .error cause after => exact heffects
      | .ok none after => exact heffects
      | .ok (some seg') after =>
        rcases heffects with ⟨rfl, hne, hcontent, hchanged⟩
        exact ⟨hcontent, records_of_scan hholds hne hindices hlast, hchanged⟩

/-! ## The segment -/

/-- What a reconstruction has come to that yields a segment: it holds what the scan handed over, and
the file is cut to the size it accounts for. -/
structure Yielded (context : SegmentContext) (path : String) (range : SegmentRange) (keep : Bool)
    (host : Host) (entries : List LogEntry) (seg : Segment) (after : Host) : Prop where
  scanned : (host.disk.scan path range context.maxEntrySize).entries = entries
  nonempty : entries ≠ []
  holds : seg.Holds entries
  plain : ∀ e ∈ entries, e.hasStateData = false
  start : seg.start = range.start
  context : seg.context = context
  isOpen : seg.isOpen = range.isOpen
  cache : seg.cache.Shows (if keep || range.isOpen then entries else [])
  sink : after.sink = entries.foldl Sink.accept host.sink
  cut : ∃ id, host.disk.HasFile path id ∧ seg.fileSize ≤ (host.disk.content id).length ∧
    after.disk = host.disk.setContent id ((host.disk.content id).take seg.fileSize)

theorem withSegment_eq_ok {new : Segment} {m : Session.Step Unit}
    (h : withSegment new m host = .ok seg after) :
    ∃ s, m { host with segment := new } = .ok () s ∧ seg = s.segment ∧ after = s.toHost := by
  cases hm : m { host with segment := new } with
  | error cause s =>
    rw [withSegment_of_error hm] at h
    cases h
  | ok _ s =>
    rw [withSegment_of_ok hm] at h
    cases h
    exact ⟨s, rfl, rfl, rfl⟩

/-- What was scanned was taken in entry by entry, and the file brought in line with it. -/
theorem taken_of_loadSegment {context : SegmentContext} {keep : Bool} {seg? : Option Segment}
    (h : loadSegment context path range keep host = .ok seg? after) :
    ∃ new t, Segment.ofRange context range = .ok new ∧
      ((host.disk.scan path range context.maxEntrySize).entries.forM
        (takeRead (keep || range.isOpen))) { host with segment := new } = .ok () t ∧
      Loaded { host with segment := new } (keep || range.isOpen)
        (host.disk.scan path range context.maxEntrySize).entries t ∧
      reconcile path range (host.disk.scan path range context.maxEntrySize).entries.length t.segment
        (counted (host.disk.scan path range context.maxEntrySize) t).toHost = .ok seg? after := by
  cases hseg : Segment.ofRange context range with
  | error fault =>
    rw [loadSegment_of_fault hseg] at h
    cases h
  | ok new =>
    obtain ⟨hnew, -, hcache, -, -⟩ := Segment.holds_of_ofRange hseg
    rw [loadSegment_of_range hseg] at h
    obtain ⟨_, _, hwith, hreconcile⟩ := bind_eq_ok.mp h
    obtain ⟨s, htake, rfl, rfl⟩ := withSegment_eq_ok hwith
    obtain ⟨t, hrun, rfl⟩ := takeScan_eq_ok htake
    have hloaded := (loaded_nil _ _ hnew hcache).run hrun
    rw [List.nil_append] at hloaded
    exact ⟨new, t, rfl, hrun, hloaded, hreconcile⟩

theorem loadSegment_eq_none {context : SegmentContext} {keep : Bool}
    (h : loadSegment context path range keep host = .ok none after) :
    (host.disk.scan path range context.maxEntrySize).entries = [] := by
  obtain ⟨new, t, hseg, -, hloaded, hreconcile⟩ := taken_of_loadSegment h
  by_contra hne
  have hfirst := hloaded.first.trans (Segment.holds_of_ofRange hseg).2.1
  rw [reconcile_of_holds hloaded.holds hne hfirst] at hreconcile
  obtain ⟨_, _, -, hsome⟩ := bind_eq_ok.mp hreconcile
  cases (pure_eq_ok.mp hsome).1

/-- A segment is what was read, and the file was cut behind the last of it. -/
theorem cut_of_loadSegment {context : SegmentContext} {keep : Bool}
    (h : loadSegment context path range keep host = .ok (some seg) after) :
    ∃ new t, Segment.ofRange context range = .ok new ∧
      ((host.disk.scan path range context.maxEntrySize).entries.forM
        (takeRead (keep || range.isOpen))) { host with segment := new } = .ok () t ∧
      Loaded { host with segment := new } (keep || range.isOpen)
        (host.disk.scan path range context.maxEntrySize).entries t ∧
      (host.disk.scan path range context.maxEntrySize).entries ≠ [] ∧ seg = t.segment ∧
      cutFile path t.segment.fileSize
        (counted (host.disk.scan path range context.maxEntrySize) t).toHost = .ok () after := by
  obtain ⟨new, t, hseg, hrun, hloaded, hreconcile⟩ := taken_of_loadSegment h
  generalize host.disk.scan path range context.maxEntrySize = scan at *
  have hne : scan.entries ≠ [] := by
    intro hnil
    rw [hnil] at hreconcile
    obtain ⟨_, _, -, hnone⟩ := bind_eq_ok.mp hreconcile
    cases (pure_eq_ok.mp hnone).1
  have hfirst := hloaded.first.trans (Segment.holds_of_ofRange hseg).2.1
  obtain ⟨rfl, hcut⟩ := reconcile_eq_some hloaded.holds hne hfirst hreconcile
  exact ⟨new, t, hseg, hrun, hloaded, hne, rfl, hcut⟩

theorem loadSegment_eq_some {context : SegmentContext} {keep : Bool}
    (h : loadSegment context path range keep host = .ok (some seg) after) :
    ∃ entries, Yielded context path range keep host entries seg after := by
  obtain ⟨new, t, hseg, -, hloaded, hne, rfl, hcut⟩ := cut_of_loadSegment h
  obtain ⟨-, hstart, -, hopen, -⟩ := Segment.holds_of_ofRange hseg
  have hfits (id : FileId) (hfind : host.disk.find path = .ok (.file id)) :=
    fileSize_le_of_scan range context.maxEntrySize hfind
  generalize hscan : (host.disk.scan path range context.maxEntrySize) = scan at *
  have hdisk : (counted scan t).disk = host.disk := hloaded.disk
  obtain ⟨id, hfind, hcontent⟩ := cutFile_eq_ok hcut
  have hsink : after.sink = (counted scan t).sink :=
    congrArg (·.2.2) ((cutFile_within path _).of_ok hcut)
  rw [hdisk] at hfind hcontent
  have hlength := hfits id hfind hne
  rw [← hloaded.holds.fileSize] at hlength
  have hbound : id.number < host.disk.contents.size := by
    apply Disk.bound_of_content_ne_nil
    intro hnil
    rw [hnil, hloaded.holds.fileSize] at hlength
    exact absurd hlength (by simp [headerSize, magic])
  exact ⟨scan.entries, by rw [hscan], hne, hloaded.holds, hloaded.plain,
    hloaded.first.trans hstart, hloaded.context.trans (Segment.context_of_ofRange hseg),
    hloaded.isOpen.trans hopen, hloaded.cache, hsink.trans hloaded.sink, id, ⟨hfind, hbound⟩,
    hlength, hcontent hlength⟩

/-! ## Well-formed disks -/

theorem leaves_onDisk {α : Type} {m : Disk.Action α} (h : Leaves Disk.WellFormed m host.disk) :
    Leaves (fun host : Host => host.disk.WellFormed) (onDisk m) host := by
  unfold Leaves onDisk
  cases hm : m host.disk with
  | ok a disk => exact h.of_ok hm
  | error cause disk => exact h.of_error hm

theorem leaves_removeIfThere (h : host.disk.WellFormed) (path : String) :
    Leaves (fun host : Host => host.disk.WellFormed) (removeIfThere path) host := by
  have hremoved := Disk.leaves_remove h path
  unfold Leaves removeIfThere
  cases hremove : Disk.remove path host.disk with
  | ok _ disk => exact hremoved.of_ok hremove
  | error cause disk =>
    have hdisk := hremoved.of_error hremove
    cases cause <;> exact hdisk

theorem leaves_cutFile (h : host.disk.WellFormed) (path : String) (length : Nat) :
    Leaves (fun host : Host => host.disk.WellFormed) (cutFile path length) host := by
  unfold Leaves
  rw [cutFile, get_bind]
  cases host.disk.read path with
  | error cause => exact h
  | ok content =>
    exact Leaves.ite (fun _ => leaves_onDisk (Disk.leaves_setLength h path length)) fun _ => h

theorem leaves_orLetGo {m : Step Unit}
    (h : Leaves (fun host : Host => host.disk.WellFormed) m host) (seg : Segment) :
    Leaves (fun host : Host => host.disk.WellFormed) (orLetGo seg m) host := by
  unfold Leaves
  cases hm : m host with
  | ok _ after =>
    rw [orLetGo_of_ok hm]
    exact h.of_ok hm
  | error cause after =>
    have hkept := h.of_error hm
    rw [orLetGo_of_error hm]
    exact hkept

theorem leaves_reconcile (h : host.disk.WellFormed) (path : String) (range : SegmentRange)
    (count : Nat) (seg : Segment) :
    Leaves (fun host : Host => host.disk.WellFormed) (reconcile path range count seg) host := by
  refine Leaves.ite (fun _ => ?_) fun _ => ?_
  · exact (leaves_removeIfThere h path).bind fun _ _ _ ht => ht
  · refine (leaves_orLetGo ?_ seg).bind fun _ _ _ ht => ht
    refine (leaves_cutFile h path seg.fileSize).bind fun _ t _ ht => ?_
    dsimp only
    split
    · exact ht
    · exact ht

/-- A reconstruction keeps a disk well formed, however it ends. -/
theorem leaves_loadSegment (h : host.disk.WellFormed) (context : SegmentContext) (path : String)
    (range : SegmentRange) (keep : Bool) :
    Leaves (fun host : Host => host.disk.WellFormed) (loadSegment context path range keep)
      host := by
  cases hseg : Segment.ofRange context range with
  | error fault =>
    unfold Leaves
    rw [loadSegment_of_fault hseg]
    exact h
  | ok seg =>
    unfold Leaves
    rw [loadSegment_of_range hseg]
    refine Leaves.bind ?_ fun seg' t _ ht => leaves_reconcile ht path range _ seg'
    unfold Leaves
    cases htake : takeScan (host.disk.scan path range context.maxEntrySize) context.policy
        (keep || range.isOpen) { host with segment := seg } with
    | error cause s =>
      rw [withSegment_of_error htake]
      change s.disk.WellFormed
      rw [(takeScan_eq_error htake).1]
      exact h
    | ok _ s =>
      rw [withSegment_of_ok htake]
      obtain ⟨t, hrun, rfl⟩ := takeScan_eq_ok htake
      have hdisk := (Within.forM (takeRead_within (keep || range.isOpen)) _).of_ok hrun
      change t.disk.WellFormed
      rw [hdisk]
      exact h

end SegmentedLog.Host
