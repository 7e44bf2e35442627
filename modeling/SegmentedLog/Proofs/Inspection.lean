import SegmentedLog.Inspect.Report
import SegmentedLog.Proofs.CommandLine
import SegmentedLog.Proofs.Reloading
import SegmentedLog.Proofs.Reopening

/-! # What an inspection prints and loads again

A run that lists the records of a file can be asked to load one of them again. The entry is then
looked for in the file with the name of the segment as it was reconstructed. Where this is the file
that was listed, nothing is missing from it exactly if its frames are as a writer lays them out.
-/

namespace SegmentedLog.Inspect

open Stepwise

/-! ## Printing -/

def textOf : List String → String
  | [] => ""
  | line :: lines => line ++ "\n" ++ textOf lines

theorem textOf_append (lines more : List String) :
    textOf (lines ++ more) = textOf lines ++ textOf more := by
  induction lines with
  | nil => rw [List.nil_append, textOf, String.empty_append]
  | cons line lines ih => simp only [List.cons_append, textOf, ih, String.append_assoc]

namespace Desk

variable {desk : Desk} {lines more : List String}

def printed (desk : Desk) (lines : List String) : Desk :=
  { desk with output := desk.output ++ textOf lines }

theorem printed_nil (desk : Desk) : desk.printed [] = desk := by
  rw [printed, textOf, String.append_empty]

theorem printed_printed : (desk.printed lines).printed more = desk.printed (lines ++ more) := by
  rw [printed, printed, printed, textOf_append, ← String.append_assoc]

def on (desk : Desk) (host : Host) : Desk := { desk with toHost := host }

theorem printed_on (host : Host) : (desk.printed lines).on host = (desk.on host).printed lines :=
  rfl

theorem on_on (host after : Host) : (desk.on host).on after = desk.on after := rfl

theorem toHost_printed : (desk.printed lines).toHost = desk.toHost := rfl

theorem toHost_on (host : Host) : (desk.on host).toHost = host := rfl

theorem output_on (host : Host) : (desk.on host).output = desk.output := rfl

end Desk

variable {desk : Desk} {seg : Segment} {host after : Host} {i : UInt64} {r : LogRecord}
  {cause : Failure} {s : Session}

theorem printLine_eq (line : String) (desk : Desk) :
    printLine line desk = .ok () (desk.printed [line]) := by
  change EStateM.Result.ok () { desk with output := desk.output ++ line ++ "\n" } = _
  rw [Desk.printed, textOf, textOf, String.append_empty, String.append_assoc]

theorem forM_printLine {α : Type} (f : α → String) (xs : List α) (desk : Desk) :
    (xs.forM fun x => printLine (f x)) desk = .ok () (desk.printed (xs.map f)) := by
  induction xs generalizing desk with
  | nil => rw [List.map_nil, Desk.printed_nil]; rfl
  | cons x xs ih =>
    rw [List.forM_eq_forM, List.forM_cons, bind_of_ok (printLine_eq _ _)]
    exact (ih _).trans (by rw [Desk.printed_printed]; rfl)

def tableLines (seg : Segment) : List String :=
  row "INDEX" "TERM" "KIND" "OFFSET" "SIZE" :: seg.records.map recordRow ++
    ["",
      s!"segment:          {seg}",
      s!"entries:          {seg.size}",
      s!"total file size:  {seg.fileSize}",
      s!"cache size:       {seg.cache.size}"]

def loadedLines (key : TermIndex) (length cached times : Nat) : List String :=
  ["",
    s!"loaded {key}: {length} payload bytes",
    s!"cache entries:    {cached}",
    s!"loading times:    {times}"]

def statisticsLines (entriesRead segmentLoads : Nat) : List String :=
  [s!"entries read:     {entriesRead}", s!"segment loads:    {segmentLoads}"]

theorem printRecords_eq (seg : Segment) (desk : Desk) :
    printRecords seg desk = .ok () (desk.printed (tableLines seg)) := by
  rw [printRecords, bind_of_ok (printLine_eq _ _), bind_of_ok (forM_printLine _ _ _),
    bind_of_ok (printLine_eq _ _), bind_of_ok (printLine_eq _ _), bind_of_ok (printLine_eq _ _),
    bind_of_ok (printLine_eq _ _), printLine_eq]
  simp only [Desk.printed_printed, List.append_assoc]
  rfl

theorem printStatistics_eq (desk : Desk) : printStatistics desk = .ok ()
    (desk.printed (statisticsLines desk.metrics.entriesRead desk.metrics.segmentLoads)) := by
  rw [printStatistics, get_bind, bind_of_ok (printLine_eq _ _), printLine_eq, Desk.printed_printed]
  rfl

/-! ## Loading an entry again -/

theorem onSegment_of_ok {α : Type} {m : Session.Step α} {a : α}
    (h : m { desk.toHost with segment := seg } = .ok a s) :
    onSegment seg m desk = .ok (a, s.segment) (desk.on s.toHost) := by
  simp only [onSegment, h, Desk.on]

theorem onSegment_of_error {α : Type} {m : Session.Step α}
    (h : m { desk.toHost with segment := seg } = .error cause s) :
    onSegment seg m desk = .error cause (desk.on s.toHost) := by
  simp only [onSegment, h, Desk.on]

theorem reload_of_unknown (h : seg.record? i = none) :
    reload seg i desk = .error (.error (.config (.unknownIndex i seg.name))) desk := by
  rw [reload, h]
  rfl

theorem reload_of_ok {loaded : EntryRef} (desk : Desk) (hrecord : seg.record? i = some r)
    (h : (do Session.evict; Session.load r.key) { desk.toHost with segment := seg } =
      .ok loaded s) :
    reload seg i desk = .ok () ((desk.on s.toHost).printed (loadedLines loaded.entry.key
      loaded.entry.payload.length s.segment.cache.entries s.segment.loader.loadingTimes)) := by
  rw [reload, hrecord]
  dsimp only
  rw [bind_of_ok (onSegment_of_ok h), bind_of_ok (printLine_eq _ _),
    bind_of_ok (printLine_eq _ _), bind_of_ok (printLine_eq _ _), printLine_eq]
  simp only [Desk.printed_printed]
  rfl

theorem reload_of_error (hrecord : seg.record? i = some r)
    (h : (do Session.evict; Session.load r.key) { desk.toHost with segment := seg } =
      .error cause s) :
    reload seg i desk = .error cause (desk.on s.toHost) := by
  rw [reload, hrecord]
  exact bind_of_error (onSegment_of_error h)

/-! ## An inspection -/

variable {arguments : Arguments} {range : SegmentRange} {seg? : Option Segment}

def Arguments.context (arguments : Arguments) : SegmentContext :=
  { dataDir := Path.parent arguments.file
    policy := arguments.policy
    maxEntrySize := arguments.maxEntrySize.toNat }

theorem openDirectory_eq_ok {config : Config} {directory : Directory} :
    openDirectory config host = .ok directory after ↔ ∃ opened,
      Disk.makeDirectories config.dataDir host.disk = .ok () opened ∧
        directory = ⟨config⟩ ∧ after = { host with disk := opened } := by
  rw [openDirectory, Directory.openOn]
  cases Disk.makeDirectories config.dataDir host.disk <;> simp [eq_comm]

/-- Without a range that is demanded, the name tells it, and the segment is reconstructed in the
directory of the file. -/
theorem reconstruct_eq_ok (hstart : arguments.start? = none) :
    reconstruct arguments host = .ok (range, seg?) after ↔
      SegmentRange.ofPath? arguments.file = some range ∧ ∃ opened,
        Disk.makeDirectories (Path.parent arguments.file) host.disk = .ok () opened ∧
          Host.loadSegment arguments.context arguments.file range arguments.keepCached
            { host with disk := opened } = .ok seg? after := by
  unfold reconstruct
  rw [Arguments.range, hstart]
  dsimp only
  cases SegmentRange.ofPath? arguments.file with
  | none =>
    constructor
    · intro h
      exact absurd h throw_ne_ok
    · rintro ⟨h, -⟩
      cases h
  | some range' =>
    dsimp only
    constructor
    · intro h
      obtain ⟨directory, _, hopen, hrest⟩ := bind_eq_ok.mp h
      obtain ⟨seg?', after', hload, hpure⟩ := bind_eq_ok.mp hrest
      obtain ⟨hpair, rfl⟩ := pure_eq_ok.mp hpure
      cases hpair
      obtain ⟨opened, hmake, rfl, rfl⟩ := openDirectory_eq_ok.mp hopen
      exact ⟨rfl, opened, hmake, hload⟩
    · rintro ⟨hrange, opened, hmake, hload⟩
      cases hrange
      have hopen : openDirectory arguments.config host = .ok _ _ :=
        openDirectory_eq_ok.mpr ⟨opened, hmake, rfl, rfl⟩
      exact (bind_of_ok hopen).trans (bind_of_ok hload)

theorem onHost_of_ok {α : Type} {m : Host.Step α} {a : α} (h : m desk.toHost = .ok a after) :
    onHost m desk = .ok a (desk.on after) := by
  simp only [onHost, h, Desk.on]

theorem onHost_eq_ok {α : Type} {m : Host.Step α} {a : α} {desk' : Desk}
    (h : onHost m desk = .ok a desk') : ∃ after, m desk.toHost = .ok a after := by
  unfold onHost at h
  split at h
  · next hm =>
    cases h
    exact ⟨_, hm⟩
  · cases h

theorem inspect_of_none (desk : Desk)
    (h : reconstruct arguments desk.toHost = .ok (range, none) after) :
    inspect arguments desk =
      .ok () ((desk.on after).printed [s!"{range}: no entries (file deleted)"]) := by
  rw [inspect, bind_of_ok (onHost_of_ok h)]
  exact printLine_eq _ _

theorem inspect_of_some (desk : Desk)
    (h : reconstruct arguments desk.toHost = .ok (range, some seg) after)
    (hload : arguments.load? = none) : inspect arguments desk = .ok () ((desk.on after).printed
      (tableLines seg ++
        statisticsLines after.metrics.entriesRead after.metrics.segmentLoads)) := by
  rw [inspect, bind_of_ok (onHost_of_ok h)]
  dsimp only
  rw [bind_of_ok (printRecords_eq _ _), hload]
  exact (printStatistics_eq _).trans (by rw [Desk.printed_printed]; rfl)

/-- What is to be loaded again is so after the table was printed. -/
theorem inspect_loading (desk : Desk)
    (h : reconstruct arguments desk.toHost = .ok (range, some seg) after)
    (i : UInt64) : inspect { arguments with load? := some i } desk =
      (do reload seg i; printStatistics) ((desk.on after).printed (tableLines seg)) := by
  have hsame : reconstruct { arguments with load? := some i } desk.toHost =
      .ok (range, some seg) after := h
  rw [inspect, bind_of_ok (onHost_of_ok hsame)]
  dsimp only
  rw [bind_of_ok (printRecords_eq _ _)]

/-- What is told of it comes between the table and the statistics. -/
theorem inspect_of_loaded {loaded : EntryRef} (desk : Desk)
    (h : reconstruct arguments desk.toHost = .ok (range, some seg) after)
    (hrecord : seg.record? i = some r)
    (hload : (do Session.evict; Session.load r.key) { after with segment := seg } =
      .ok loaded s) :
    inspect { arguments with load? := some i } desk = .ok () ((desk.on s.toHost).printed
      (tableLines seg ++ (loadedLines loaded.entry.key loaded.entry.payload.length
        s.segment.cache.entries s.segment.loader.loadingTimes ++
        statisticsLines s.metrics.entriesRead s.metrics.segmentLoads))) := by
  have hreload := reload_of_ok ((desk.on after).printed (tableLines seg)) hrecord hload
  rw [inspect_loading desk h, bind_of_ok hreload, printStatistics_eq]
  simp only [Desk.printed_on, Desk.printed_printed, Desk.toHost_printed, Desk.toHost_on,
    Desk.on_on, List.append_assoc]

/-! ## A run -/

variable {line : List String} {disk : Disk}

theorem run_of_ok {desk : Desk} (hread : read line = .ok (.inspect arguments))
    (h : inspect arguments { disk } = .ok () desk) :
    run line disk = { code := 0, output := desk.output, disk := desk.disk } := by
  simp only [run, hread, h]

theorem run_of_error {desk : Desk} {error : SegmentError}
    (hread : read line = .ok (.inspect arguments))
    (h : inspect arguments { disk } = .error (.error error) desk) :
    (run line disk).code = 1 ∧ (run line disk).output = desk.output := by
  simp only [run, hread, h, and_self]

/-- A run that fails half-way tells so, and what it printed stays printed. -/
theorem run_of_failure {desk : Desk} (hread : read line = .ok (.inspect arguments))
    (h : inspect arguments { disk } = .error cause desk) : (run line disk).code ≠ 0 := by
  cases cause with
  | error error => simp [run, hread, h]
  | fault fault => simp [run, hread, h]

theorem inspect_of_run (hread : read line = .ok (.inspect arguments))
    (hcode : (run line disk).code = 0) : ∃ desk, inspect arguments { disk } = .ok () desk := by
  cases h : inspect arguments { disk } with
  | ok _ desk => exact ⟨desk, rfl⟩
  | error cause desk => exact absurd hcode (run_of_failure hread h)

/-! ## Listing, and loading again what was listed -/

/-- What a run has come to that lists the records of a file. -/
structure Listed (arguments : Arguments) (disk : Disk) (range : SegmentRange) (opened : Disk)
    (entries : List LogEntry) (seg : Segment) (after : Host) : Prop where
  reconstructed : reconstruct arguments { disk } = .ok (range, some seg) after
  yielded : Host.Yielded arguments.context arguments.file range arguments.keepCached
    { disk := opened } entries seg after
  tally : ({ after with segment := seg } : Session).tally = ⟨0, 0, entries.length⟩

/-- Whether a command line asks for the same, and besides to load an entry again. -/
def AlsoLoads (arguments : Arguments) (i : UInt64) (line : List String) : Prop :=
  read line = .ok (.inspect { arguments with load? := some i })

/-- Whether the same table is printed when an entry is to be loaded again, and the entry is told of
as it was read, with one load. -/
def Reloads (arguments : Arguments) (disk : Disk) (seg : Segment) (entries : List LogEntry)
    (e : LogEntry) : Prop :=
  ∀ line, AlsoLoads arguments e.index line → (run line disk).code = 0 ∧
    (run line disk).output = textOf (tableLines seg ++
      loadedLines e.key e.payload.length entries.length 1 ++
      statisticsLines (entries.length + entries.length) 1)

variable {opened : Disk} {entries : List LogEntry} {e : LogEntry}

theorem listed_of_reconstruct (hstart : arguments.start? = none)
    (h : reconstruct arguments { disk } = .ok (range, some seg) after) :
    SegmentRange.ofPath? arguments.file = some range ∧ ∃ opened entries,
      Disk.makeDirectories (Path.parent arguments.file) disk = .ok () opened ∧
        Listed arguments disk range opened entries seg after := by
  obtain ⟨hrange, opened, hmake, hload⟩ := (reconstruct_eq_ok hstart).mp h
  obtain ⟨entries, hyielded⟩ := Host.loadSegment_eq_some hload
  have htally := Host.tally_of_loadSegment hload
  rw [hyielded.scanned, Nat.zero_add] at htally
  exact ⟨hrange, opened, entries, hmake, h, hyielded, htally⟩

namespace Listed

theorem run_of_unknown (h : Listed arguments disk range opened entries seg after)
    (hline : AlsoLoads arguments i line) (hi : i ∉ entries.map (·.index)) :
    (run line disk).code = 1 ∧ (run line disk).output = textOf (tableLines seg) := by
  have hrecord : seg.record? i = none := by
    refine List.find?_eq_none.mpr fun r hr hindex => hi ?_
    have hmem : r.index ∈ seg.records.map (·.index) := List.mem_map_of_mem hr
    rw [h.yielded.holds.records, LogRecord.map_index_layout, of_decide_eq_true hindex] at hmem
    exact hmem
  have hinspect := (inspect_loading { disk } h.reconstructed i).trans
    (bind_of_error (reload_of_unknown hrecord))
  obtain ⟨hcode, houtput⟩ := run_of_error hline hinspect
  refine ⟨hcode, houtput.trans ?_⟩
  exact String.empty_append

/-- An entry that was listed is loaded again exactly if the file of the segment serves it, and what
is told of it is what stands there. -/
theorem run_of_listed (h : Listed arguments disk range opened entries seg after)
    (he : e ∈ entries) (hline : AlsoLoads arguments e.index line) :
    ((run line disk).code = 0 ↔
      (seg.scanOn after.disk).Serves arguments.policy e.key) ∧
    ((run line disk).code = 0 → ∃ found ∈ (seg.scanOn after.disk).entries, found.key = e.key ∧
      (run line disk).output = textOf (tableLines seg ++
        loadedLines e.key found.payload.length (seg.scanOn after.disk).entries.length 1 ++
        statisticsLines (entries.length + (seg.scanOn after.disk).entries.length) 1)) := by
  have hspans := h.yielded.holds.spans h.yielded.nonempty
  obtain ⟨r, hrecord, hheader⟩ := hspans.record?_of_mem he
  have hkey : r.key = e.key := congrArg EntryHeader.key hheader
  have hcontains : seg.Contains r.key.index := by
    rw [hkey]
    exact hspans.contains_iff.mpr (List.mem_map_of_mem he)
  have hpolicy : seg.context.policy = arguments.policy := by rw [h.yielded.context]; rfl
  have hinspect := inspect_loading { disk } h.reconstructed e.index
  cases hload : (do Session.evict; Session.load r.key) { after with segment := seg } with
  | ok loaded t =>
    obtain ⟨hserves, hmem, hloaded, htally, hcount⟩ := Session.evict_load_eq_ok hcontains hload
    rw [h.tally] at htally
    obtain ⟨htimes, hloads, hread⟩ := Session.Tally.mk.inj htally
    have hrun := run_of_ok hline (inspect_of_loaded { disk } h.reconstructed hrecord hload)
    rw [hrun]
    refine ⟨⟨fun _ => ?_, fun _ => rfl⟩, fun _ => ⟨loaded.entry, hmem, hloaded.trans hkey, ?_⟩⟩
    · rw [← hpolicy, ← hkey]
      exact hserves
    · refine String.empty_append.trans ?_
      rw [hcount h.yielded.cache.isOpen, htimes, hloads, hread, hloaded.trans hkey,
        List.append_assoc]
  | error cause t =>
    have hfailed := run_of_failure hline
      (hinspect.trans (bind_of_error (reload_of_error hrecord hload)))
    refine ⟨⟨fun hcode => absurd hcode hfailed, fun hserves => ?_⟩,
      fun hcode => absurd hcode hfailed⟩
    rw [← hpolicy, ← hkey] at hserves
    obtain ⟨loaded, t', hok⟩ := Session.exists_evict_load
      (s := { after with segment := seg }) hcontains hserves
    cases hload.symm.trans hok

/-- Where the file has the name of the segment, each of its entries can be loaded again exactly if
the file started with their image. -/
theorem reloads_iff (h : Listed arguments disk range opened entries seg after)
    (hname : Path.name? arguments.file = some seg.range.name)
    (hlines : ∀ i, ∃ line, AlsoLoads arguments i line) :
    (∀ e ∈ entries, Reloads arguments disk seg entries e) ↔
      ∃ content, opened.read arguments.file = .ok content ∧ fileImage entries <+: content := by
  obtain ⟨id, hfile, -, -⟩ := h.yielded.cut
  have hleft := h.yielded.hasFile rfl hname hfile
  have hserves := h.yielded.serves_iff hfile hleft arguments.policy
  have hscan : seg.scanOn after.disk =
      after.disk.scan seg.file seg.range arguments.context.maxEntrySize := by
    rw [Segment.scanOn, h.yielded.context]
  constructor
  · intro hreloads
    refine hserves.mp fun e he => ?_
    obtain ⟨line, hline⟩ := hlines e.index
    rw [← hscan]
    exact (h.run_of_listed he hline).1.mp (hreloads e he line hline).1
  · rintro ⟨content, hread, himage⟩ e he line hline
    obtain ⟨hcode, houtput⟩ := h.run_of_listed he hline
    have hagain := (h.yielded.scan_again hread himage hleft hfile).2
    rw [hscan] at hcode houtput
    have hzero := hcode.mpr (hserves.mpr ⟨content, hread, himage⟩ e he)
    obtain ⟨found, hfound, hkey, htext⟩ := houtput hzero
    rw [hagain] at hfound htext
    have hsame : found = e := List.inj_on_of_nodup_map
      h.yielded.holds.consecutive.nodup_keys hfound he hkey
    rw [hsame] at htext
    exact ⟨hzero, htext⟩

end Listed

/-- What a segment is that was recovered from the entries in a file. -/
structure Recovered (arguments : Arguments) (range : SegmentRange) (entries : List LogEntry)
    (seg : Segment) : Prop where
  context : seg.context = arguments.context
  records : seg.records = LogRecord.layout headerSize entries
  start : seg.range.start = range.start
  isOpen : seg.range.isOpen = range.isOpen
  /-- A closed one ends with the last entry. -/
  last : range.isOpen = false → some seg.range.last = entries.getLast?.map (·.index)

theorem Listed.recovered (h : Listed arguments disk range opened entries seg after) :
    Recovered arguments range entries seg := by
  refine ⟨h.yielded.context, h.yielded.holds.records, seg.start_range.trans h.yielded.start,
    seg.isOpen_range.trans h.yielded.isOpen, fun hclosed => ?_⟩
  rw [h.yielded.last_range hclosed, List.getLast?_eq_some_getLast h.yielded.nonempty]
  rfl

/-- A run that succeeds with the range in the name of the file tells that nothing was read, or lists
the entries that were. No other index can be loaded again. An entry can, exactly if a scan of the
file with the name of the segment serves it. Where this is the file that was listed, all can exactly
if it started with their image, and then what is told of them is what was read. -/
theorem run_lists_and_reloads (hread : read line = .ok (.inspect arguments))
    (hstart : arguments.start? = none) (hload : arguments.load? = none)
    (hcode : (run line disk).code = 0) :
    ∃ range opened entries, SegmentRange.ofPath? arguments.file = some range ∧
      Disk.makeDirectories (Path.parent arguments.file) disk = .ok () opened ∧
      (opened.scan arguments.file range arguments.context.maxEntrySize).entries = entries ∧
      (entries = [] ∧ (run line disk).output = textOf [s!"{range}: no entries (file deleted)"] ∨
        entries ≠ [] ∧ ∃ seg, Recovered arguments range entries seg ∧
          (run line disk).output = textOf (tableLines seg ++ statisticsLines entries.length 0) ∧
          (∀ i, AlsoLoads arguments i (withLoad i line)) ∧
          (∀ i line', AlsoLoads arguments i line' → i ∉ entries.map (·.index) →
            (run line' disk).code = 1 ∧ (run line' disk).output = textOf (tableLines seg)) ∧
          (∀ e ∈ entries, ∀ line', AlsoLoads arguments e.index line' →
            ((run line' disk).code = 0 ↔
              (seg.scanOn (run line disk).disk).Serves arguments.policy e.key) ∧
            ((run line' disk).code = 0 →
              ∃ found ∈ (seg.scanOn (run line disk).disk).entries, found.key = e.key ∧
                (run line' disk).output = textOf (tableLines seg ++
                  loadedLines e.key found.payload.length
                    (seg.scanOn (run line disk).disk).entries.length 1 ++
                  statisticsLines (entries.length +
                    (seg.scanOn (run line disk).disk).entries.length) 1))) ∧
          (Path.name? arguments.file = some seg.range.name →
            ((∀ e ∈ entries, Reloads arguments disk seg entries e) ↔
              ∃ content, opened.read arguments.file = .ok content ∧
                fileImage entries <+: content))) := by
  obtain ⟨desk, hinspect⟩ := inspect_of_run hread hcode
  obtain ⟨⟨range, seg?⟩, _, honHost, -⟩ := bind_eq_ok.mp hinspect
  obtain ⟨after, hreconstruct⟩ := onHost_eq_ok honHost
  match seg? with
  | none =>
    obtain ⟨hrange, opened, hmake, hnone⟩ := (reconstruct_eq_ok hstart).mp hreconstruct
    have hnothing := Host.loadSegment_eq_none hnone
    refine ⟨range, opened, [], hrange, hmake, hnothing, .inl ⟨rfl, ?_⟩⟩
    rw [run_of_ok hread (inspect_of_none { disk } hreconstruct)]
    exact String.empty_append
  | some seg =>
    obtain ⟨hrange, opened, entries, hmake, h⟩ := listed_of_reconstruct hstart hreconstruct
    have hrun := run_of_ok hread (inspect_of_some { disk } hreconstruct hload)
    have hlines (i : UInt64) : AlsoLoads arguments i (withLoad i line) :=
      read_withLoad hread hload i
    obtain ⟨-, hloads, hcount⟩ := Session.Tally.mk.inj h.tally
    have hscanned := h.yielded.scanned
    refine ⟨range, opened, entries, hrange, hmake, hscanned,
      .inr ⟨h.yielded.nonempty, seg, h.recovered, ?_, hlines, fun i line' => h.run_of_unknown, ?_,
        fun hname => h.reloads_iff hname fun i => ⟨_, hlines i⟩⟩⟩
    · rw [hrun, hloads, hcount]
      exact String.empty_append
    · rw [hrun]
      exact fun e he line' => h.run_of_listed he

/-! ## A file under two names -/

/-- A disk with one file that holds an entry and is padded. -/
def sampleFile (name : String) : Disk where
  directories := #[[(name, .file ⟨0⟩)]]
  contents := #[fileImage [.sample 5] ++ List.replicate 2 0]

theorem reconstruct_sampleFile {name : String} (hfile : (sampleFile name).HasFile name ⟨0⟩)
    (hmake : Disk.makeDirectories (Path.parent name) (sampleFile name) = .ok () (sampleFile name))
    (hrange : SegmentRange.ofPath? name = some range) (hproper : range.Proper)
    (hstart : range.start = 5) :
    ((sampleFile name).scan name range (Arguments.context { file := name }).maxEntrySize).entries =
        [(LogEntry.sample 5).stripped] ∧
      ∃ seg after,
        reconstruct { file := name } { disk := sampleFile name } = .ok (range, some seg) after := by
  have hindices : Consecutive range.start.toNat ([LogEntry.sample 5].map (·.index)) := by
    rw [hstart]
    decide
  have hfits : (fileImage [.sample 5]).length < Disk.lengthLimit := by
    rw [length_fileImage]
    decide
  have hlimit : ∀ e ∈ [LogEntry.sample 5], e.stripped.encodedSize ≤
      (Arguments.context { file := name }).maxEntrySize := by
    change ∀ e ∈ [LogEntry.sample 5], e.stripped.encodedSize ≤
      (UInt64.ofNat defaultMaxEntrySize).toNat
    decide
  constructor
  · have hone : range.admitted [LogEntry.sample 5].length = 1 :=
      le_antisymm (SegmentRange.admitted_le range 1) (SegmentRange.admitted_pos hproper Nat.one_pos)
    rw [Disk.scan_image hfile rfl hproper (Host.takes_of_fits hlimit hfits) hindices, hone]
    rfl
  · obtain ⟨-, seg, after, hload, -⟩ := Host.loadSegment_of_content range
      { disk := sampleFile name } false hfile rfl (by decide) hproper hindices (by decide) hlimit
      hfits
    exact ⟨seg, after, (reconstruct_eq_ok rfl).mpr ⟨hrange, _, hmake, hload⟩⟩

theorem inProgress_reloaded :
    (run ["log_inprogress_5"] (sampleFile "log_inprogress_5")).code = 0 ∧
    ∃ seg, seg.range.name = "log_inprogress_5" ∧
      Reloads { file := "log_inprogress_5" } (sampleFile "log_inprogress_5") seg
        [(LogEntry.sample 5).stripped] (LogEntry.sample 5).stripped := by
  have hfile : (sampleFile "log_inprogress_5").HasFile "log_inprogress_5" ⟨0⟩ :=
    ⟨rfl, Nat.one_pos⟩
  have hrange : SegmentRange.ofPath? "log_inprogress_5" = some (.opening 5) := rfl
  have hread : read ["log_inprogress_5"] = .ok (.inspect { file := "log_inprogress_5" }) := rfl
  obtain ⟨hentries, seg, after, hreconstruct⟩ :=
    reconstruct_sampleFile hfile rfl hrange (by decide) rfl
  have hrun := run_of_ok hread (inspect_of_some { disk := _ } hreconstruct rfl)
  have hcode : (run ["log_inprogress_5"] (sampleFile "log_inprogress_5")).code = 0 := by rw [hrun]
  refine ⟨hcode, ?_⟩
  obtain ⟨range, opened, entries, hrange', hmake, hscan, hlisted⟩ :=
    run_lists_and_reloads hread rfl rfl hcode
  cases hrange.symm.trans hrange'
  cases hmake
  cases hentries.symm.trans hscan
  rcases hlisted with ⟨hnil, -⟩ | ⟨-, seg, hseg, -, -, -, -, hreloads⟩
  · cases hnil
  · have hname : seg.range.name = "log_inprogress_5" := by
      rw [SegmentRange.name, SegmentRange.nameChars, hseg.isOpen, hseg.start]
      rfl
    have himage : ∃ content, (sampleFile "log_inprogress_5").read "log_inprogress_5" =
        .ok content ∧ fileImage [(LogEntry.sample 5).stripped] <+: content :=
      ⟨_, Disk.read_eq_ok.mpr ⟨_, hfile.find, rfl⟩, List.prefix_append _ _⟩
    exact ⟨seg, hname, (hreloads (by rw [hname]; rfl)).mpr himage _ (by simp)⟩

/-- A closed file with fewer entries than its name tells is listed, but not found again. -/
theorem shortFile_not_reloaded : ∃ seg,
    (run ["log_5-9"] (sampleFile "log_5-9")).code = 0 ∧
    (run ["log_5-9"] (sampleFile "log_5-9")).output =
      textOf (tableLines seg ++ statisticsLines 1 0) ∧
    seg.records.map (·.index) = [5] ∧
    AlsoLoads { file := "log_5-9" } 5 ["--load=5", "log_5-9"] ∧
    (run ["--load=5", "log_5-9"] (sampleFile "log_5-9")).code ≠ 0 := by
  have hfile : (sampleFile "log_5-9").HasFile "log_5-9" ⟨0⟩ := ⟨rfl, Nat.one_pos⟩
  have hread : read ["log_5-9"] = .ok (.inspect { file := "log_5-9" }) := rfl
  have hname : SegmentRange.ofPath? "log_5-9" = some (.closed 5 9) := rfl
  obtain ⟨hentries, seg, after, hreconstruct⟩ :=
    reconstruct_sampleFile hfile rfl hname (by decide) rfl
  obtain ⟨-, opened, entries, hmake, h⟩ := listed_of_reconstruct rfl hreconstruct
  cases hmake
  cases hentries.symm.trans h.yielded.scanned
  obtain ⟨-, hloads, hcount⟩ := Session.Tally.mk.inj h.tally
  have hrun := run_of_ok hread (inspect_of_some { disk := _ } hreconstruct rfl)
  have hrange : seg.range = .closed 5 5 := by
    have hlast : seg.range.last = 5 := Option.some.inj (h.recovered.last rfl)
    calc
      seg.range = ⟨seg.range.start, seg.range.last, seg.range.isOpen⟩ := rfl
      _ = .closed 5 5 := by
        rw [h.recovered.start, hlast, h.recovered.isOpen]
        rfl
  have hline : AlsoLoads { file := "log_5-9" } 5 ["--load=5", "log_5-9"] := rfl
  refine ⟨seg, by rw [hrun], ?_, ?_, hline, fun hzero => ?_⟩
  · rw [hrun, hloads, hcount]
    exact String.empty_append
  · rw [h.yielded.holds.records, LogRecord.map_index_layout]
    rfl
  · have hserves := (h.run_of_listed (List.mem_singleton_self _) hline).1.mp hzero
    obtain ⟨-, -, e, he, -⟩ := hserves
    have hgone : after.disk.find "log_5-5" = .error .notFound := by
      obtain ⟨id, -, -, hdisk⟩ := h.yielded.cut
      rw [hdisk]
      rfl
    have hfile' : seg.file = "log_5-5" := by
      rw [Segment.file, h.yielded.context, hrange]
      rfl
    rw [Segment.scanOn, Disk.scan, hfile', hgone] at he
    cases he

end SegmentedLog.Inspect
